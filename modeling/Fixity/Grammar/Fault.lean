import Fixity.Token

/-!
# What can be wrong with a grammar

The reasons for which a grammar is refused, or a question to it has no answer, and the texts
that report them.
-/

namespace Fixity

/-! ## §1 Reasons -/

/-- Why a grammar is refused or cannot answer. -/
inductive GrammarFault where
  /-- There are not as many associativities as precedence classes. -/
  | countMismatch (classes associativities : Nat)
  /-- The class of this rank lists nothing. -/
  | emptyClass (rank : Nat)
  /-- A member of a precedence class is not an operation. -/
  | notAnOperation (member : Lexeme)
  /-- A bracket pair does not consist of an opening and a closing bracket. -/
  | notABracketPair (opening closing : Lexeme)
  /-- A symbol is empty or holds a blank. -/
  | badSymbol (symbol : String)
  /-- One symbol is a part of the other. -/
  | overlap (earlier later : Lexeme)
  /-- An operation takes neither one operand nor two. -/
  | unsupportedArity (encoding : String) (arity : Int)
  /-- A class declares an associativity that is neither left nor right. -/
  | unknownAssociativity (text : String)
  /-- A grammar file cannot be read on from this place. -/
  | unreadable (quoted source : String) (line column : Nat)
  /-- Nothing is known about which of the two binds tighter. -/
  | noPrecedence (left right : Lexeme)
  /-- There is no bracket pair to print operations with. -/
  | noBrackets
deriving DecidableEq, Repr

/-! ## §2 Reports -/

/-- A refusal as it is reported: what is wrong and, for a file, where. -/
structure GrammarError where
  message : String
  line : Option Int := none
  column : Option Int := none
deriving DecidableEq, Repr

namespace GrammarError

/-- The code of all errors about grammars. -/
def code : String :=
  "E0200"

/-- The report on one line. A place is shown if its line is known. -/
def text (e : GrammarError) : String :=
  match e.line with
  | none => s!"error[{code}]: {e.message}"
  | some line =>
    let column := (e.column.map toString).getD "None"
    s!"error[{code}]: {e.message} (line {line}, column {column})"

end GrammarError

namespace GrammarFault

/-- What is wrong, in words. -/
def message : GrammarFault → String
  | countMismatch m n =>
    "must be an equal number of precedence classes and associativities " ++ s!"(got {m} and {n})"
  | emptyClass rank => s!"precedence class {rank} has no operations"
  | notAnOperation t =>
    s!"<{t.symbol}> of kind {t.kind.title} cannot belong to a precedence class"
  | notABracketPair o c =>
    s!"grouping pair <{o.symbol}> <{c.symbol}> must be an open and a close group"
  | badSymbol s => s!"symbol {Text.quote s} must be non-empty and free of whitespace"
  | overlap s t => s!"operations <{s.encoding}> and <{t.encoding}> overlap"
  | unsupportedArity e n =>
    s!"the encoding <{e}> has arity {n}; only unary and binary operations are supported"
  | unknownAssociativity s =>
    "associativity <" ++ s ++ "> not recognized, expected `left` or `right`"
  | unreadable quoted source _ _ => s!"problem with line <{quoted}> in {source}"
  | noPrecedence l r =>
    s!"the following tokens do not have precedence rules: <{l.symbol}> <{r.symbol}>"
  | noBrackets => "grammar declares no grouping pair to bracket operations with"

/-- The report of a fault. Only a file that cannot be read on has a place. -/
def report (f : GrammarFault) : GrammarError :=
  match f with
  | unreadable _ _ line column => ⟨f.message, some line, some column⟩
  | _ => ⟨f.message, none, none⟩

end GrammarFault

end Fixity
