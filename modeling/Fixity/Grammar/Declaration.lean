import Fixity.Grammar.Basic
import Fixity.Text.Digit

/-!
# Declarations

Grammars from plain data: associativities by name, operations by arity and symbol, brackets by
their symbols. The first entry that means nothing decides which fault is found; only then the
table as a whole is checked.
-/

namespace Fixity

/-! ## §1 Associativities and operations by name -/

namespace Associativity

/-- The name of an associativity. -/
def name : Associativity → String
  | left => "left"
  | right => "right"

/-- The associativity with this name, in letters of any size. -/
def ofName? (text : String) : Except GrammarFault Associativity :=
  let lower := text.toList.map Char.toLower
  if lower = left.name.toList then .ok left
  else if lower = right.name.toList then .ok right
  else .error (.unknownAssociativity text)

end Associativity

namespace Token

/-- The operation with this arity and symbol, which `encoding` stands for. -/
def operation? (arity : Int) (symbol encoding : String) : Except GrammarFault Token :=
  if arity = 1 then .ok (ofKind .unary symbol)
  else if arity = 2 then .ok (ofKind .binary symbol)
  else .error (.unsupportedArity encoding arity)

/-- Why a text encodes no operation. -/
inductive EncodingFault where
  /-- There is no first character. -/
  | empty
  /-- The first character is not a digit. -/
  | noDigit
  /-- The digit is not the arity of an operation. -/
  | refused (fault : GrammarFault)
deriving DecidableEq, Repr

/-- The operation that a text encodes: a digit of any script for the arity, then the symbol. -/
def ofEncoding? (encoding : String) : Except EncodingFault Token :=
  match encoding.toList with
  | [] => .error .empty
  | c :: symbol =>
    match Text.digitValue? c with
    | none => .error .noDigit
    | some arity => (operation? arity (String.ofList symbol) encoding).mapError .refused

end Token

/-! ## §2 Grammars from plain data -/

/-- A declaration of a precedence class or of a bracket pair. -/
inductive Declaration where
  | precedence (associativity : String) (operations : List (Int × String))
  | brackets (opening closing : String)
deriving DecidableEq, Repr

namespace BracketPair

/-- The pair of two bracket symbols. -/
def ofSymbols (opening closing : String) : BracketPair :=
  ⟨.ofKind .opening opening, .ofKind .closing closing⟩

end BracketPair

namespace Declaration

/-- The operations of a declaration. -/
def operations? : List (Int × String) → Except GrammarFault (List Token)
  | [] => .ok []
  | (arity, symbol) :: rest => do
    let t ← Token.operation? arity symbol s!"{arity}{symbol}"
    return t :: (← operations? rest)

/-- What a list of declarations declares. In each, the associativity is looked at first. -/
def table? : List Declaration → Except GrammarFault (List PrecedenceClass × List BracketPair)
  | [] => .ok ([], [])
  | .precedence name members :: rest => do
    let associativity ← Associativity.ofName? name
    let operations ← operations? members
    let (classes, pairs) ← table? rest
    return (⟨associativity, operations⟩ :: classes, pairs)
  | .brackets opening closing :: rest => do
    let (classes, pairs) ← table? rest
    return (classes, .ofSymbols opening closing :: pairs)

/-- The precedence classes of plain data. In each, the associativity is looked at last. -/
def classes? : List (String × List (Int × String)) → Except GrammarFault (List PrecedenceClass)
  | [] => .ok []
  | (name, members) :: rest => do
    let operations ← operations? members
    let associativity ← Associativity.ofName? name
    return ⟨associativity, operations⟩ :: (← classes? rest)

end Declaration

namespace Grammar

/-- The grammar that a list of declarations declares. -/
def ofDeclarations? (ds : List Declaration) : Except GrammarFault Grammar := do
  let (classes, brackets) ← Declaration.table? ds
  build? classes brackets

/-- The grammar of plain data: the classes by associativity and members, the brackets by
    their symbols. -/
def ofData? (classes : List (String × List (Int × String))) (brackets : List (String × String)) :
    Except GrammarFault Grammar := do
  let classes ← Declaration.classes? classes
  build? classes (brackets.map fun b => .ofSymbols b.1 b.2)

end Grammar

end Fixity
