import Fixity.Grammar.Basic

/-!
# What a grammar knows about its tokens

Which token a symbol stands for, how tight a token binds, and which brackets belong together.
Only the lexeme of a token matters to these questions. Ranks are numbers: the position of a
precedence class, then brackets, looser than every class, then the sentinels, loosest of all.
-/

namespace Fixity

/-- Whether a class lists an operation with this lexeme. -/
def PrecedenceClass.has (c : PrecedenceClass) (x : Lexeme) : Bool :=
  c.operations.any fun t => t.toLexeme = x

namespace Grammar

/-! ## §1 Symbols -/

/-- The token that a symbol stands for; none for the text of an identifier. -/
def lookup? (g : Grammar) (symbol : String) : Option Token :=
  g.tokens.find? fun t => t.symbol = symbol

/-- Whether a text is the symbol of an operation or a bracket. -/
def isReserved (g : Grammar) (symbol : String) : Bool :=
  (g.lookup? symbol).isSome

/-- The symbols of operations and brackets, by code points. -/
def symbols (g : Grammar) : List String :=
  (g.tokens.map (·.symbol)).mergeSort (· ≤ ·)

/-! ## §2 Brackets -/

/-- The opening bracket that a closing bracket belongs to. -/
def openingFor? (g : Grammar) (closing : Lexeme) : Option Token :=
  (g.brackets.find? fun b => b.closing.toLexeme = closing).map (·.opening)

/-- The closing bracket that belongs to an opening bracket. -/
def closingFor? (g : Grammar) (opening : Lexeme) : Option Token :=
  (g.brackets.find? fun b => b.opening.toLexeme = opening).map (·.closing)

/-! ## §3 Ranks -/

/-- The rank of brackets: the largest signed word of 64 bits less one. -/
def bracketRank : Nat :=
  9223372036854775806

/-- The rank of the sentinels: the largest signed word of 64 bits. -/
def sentinelRank : Nat :=
  9223372036854775807

/-- How loosely a token binds; none for a token that the grammar does not know. -/
def rank? (g : Grammar) (x : Lexeme) : Option Nat :=
  if x = Token.start.toLexeme ∨ x = Token.finish.toLexeme then some sentinelRank
  else if g.brackets.any fun b => b.opening.toLexeme = x ∨ b.closing.toLexeme = x then
    some bracketRank
  else g.classes.findIdx? (·.has x)

/-- The associativity of the class of an operation. -/
def associativity? (g : Grammar) (x : Lexeme) : Option Associativity :=
  (g.classes.find? (·.has x)).map (·.associativity)

/-- Whether the left of two tokens binds tighter than the right: the lower rank does, and
    among equals the associativity of the left one decides. -/
def bindsTighter (g : Grammar) (left right : Lexeme) : Except GrammarFault Bool :=
  match g.rank? left, g.rank? right with
  | some i, some j =>
    if i = j then
      match g.associativity? left with
      | some a => .ok (a = .left)
      | none => .error (.noPrecedence left right)
    else .ok (i < j)
  | _, _ => .error (.noPrecedence left right)

end Grammar

end Fixity
