import Fixity.Span
import Fixity.Text.Quoted

/-!
# Tokens

What a line is made of. A token is a lexeme, that is a kind and a symbol, with the place where
it was read. Grammars, the checker and the engine compare lexemes; the place is only carried
along.
-/

namespace Fixity

/-! ## §1 Kinds -/

/-- The part that a token plays in an expression. -/
inductive Kind where
  | binary
  | closing
  | finish
  | identifier
  | opening
  | start
  | unary
deriving DecidableEq, Repr

namespace Kind

/-- All kinds. -/
def all : List Kind :=
  [binary, closing, finish, identifier, opening, start, unary]

/-- How many subtrees hang below a node of this kind. -/
def arity : Kind → Nat
  | binary => 2
  | unary | opening => 1
  | identifier | closing | start | finish => 0

/-- Operations are what a precedence class consists of. -/
def isOperation : Kind → Bool
  | unary | binary => true
  | _ => false

/-- Sentinels stand before the first and after the last token of a line. -/
def isSentinel : Kind → Bool
  | start | finish => true
  | _ => false

/-- The name of a kind in messages. -/
def title : Kind → String
  | identifier => "IDENTIFIER"
  | unary => "UNARY_OPERATION"
  | binary => "BINARY_OPERATION"
  | opening => "OPEN_GROUP"
  | closing => "CLOSE_GROUP"
  | start => "START"
  | finish => "END"

theorem mem_all (k : Kind) : k ∈ all := by
  cases k <;> decide

end Kind

/-! ## §2 Lexemes and tokens -/

/-- A kind and a symbol: all that decides how a token is read. -/
structure Lexeme where
  kind : Kind
  symbol : String
deriving DecidableEq, Repr

/-- A lexeme in its place: the index in the stream of tokens, negative for a token that was
    not read from a line, and the span in the line. -/
structure Token extends Lexeme where
  index : Int := -1
  span : Option Span := none
deriving DecidableEq, Repr

/-- A token is known by its lexeme. -/
instance : Coe Token Lexeme :=
  ⟨Token.toLexeme⟩

namespace Lexeme

/-- How many subtrees hang below a node with this lexeme. -/
def arity (x : Lexeme) : Nat :=
  x.kind.arity

/-- How grammar files write a symbol: an operation is preceded by its arity. -/
def encoding (x : Lexeme) : String :=
  if x.kind.isOperation then s!"{x.arity}{x.symbol}" else x.symbol

end Lexeme

namespace Token

/-- A token that was not read from a line. -/
def ofKind (kind : Kind) (symbol : String) : Token :=
  { kind, symbol }

/-- The sentinel before the first token. -/
def start : Token :=
  ofKind .start "START"

/-- The sentinel after the last token. -/
def finish : Token :=
  ofKind .finish "END"

/-- The same lexeme in another place. -/
def placed (t : Token) (index : Int) (span : Option Span) : Token :=
  { t with index, span }

/-- A token with the fields that tell it from others. -/
def describe (t : Token) : String :=
  s!"Token({t.kind.title}, {Text.quote t.symbol}, index={t.index})"

/-- The offsets that a token takes up in its line. -/
def offsets (t : Token) : List Int :=
  (t.span.map Span.offsets).getD []

@[simp] theorem toLexeme_placed (t : Token) (i : Int) (s : Option Span) :
    (t.placed i s).toLexeme = t.toLexeme := rfl

end Token

end Fixity
