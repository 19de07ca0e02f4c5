import Fixity.Grammar.Precedence

/-!
# The token checker

Every token is checked before it is used. The checker knows the last token that it accepted
and the brackets that are still open; it refuses a token that may not follow the last one, a
closing bracket that does not belong to the innermost open one, and the end while a bracket is
open. A refusal leaves the last token as it was, but a bracket stays opened or closed.
-/

namespace Fixity

/-! ## §1 Which kinds may follow which -/

namespace Kind

/-- Kinds after which an operand is still to come. -/
def awaitsOperand : Kind → Bool
  | start | binary | unary | opening => true
  | identifier | closing | finish => false

/-- Kinds that an operand can begin with. -/
def beginsOperand : Kind → Bool
  | identifier | opening | unary => true
  | binary | closing | start | finish => false

/-- Kinds that an operand can end with. -/
def endsOperand : Kind → Bool
  | identifier | closing => true
  | unary | binary | opening | start | finish => false

/-- Kinds that can come once an operand is complete. -/
def followsOperand : Kind → Bool
  | finish | closing | binary => true
  | identifier | unary | opening | start => false

/-- Whether a token of the second kind may come directly after one of the first. -/
def mayPrecede (last next : Kind) : Bool :=
  (last.awaitsOperand && next.beginsOperand) || (last.endsOperand && next.followsOperand)

/-- All pairs of kinds that may stand side by side. -/
def neighbours : List (Kind × Kind) :=
  (all.flatMap fun last => all.map (last, ·)).filter fun p => p.1.mayPrecede p.2

theorem mem_neighbours {p : Kind × Kind} : p ∈ neighbours ↔ p.1.mayPrecede p.2 = true := by
  simp only [neighbours, List.mem_filter, List.mem_flatMap, List.mem_map]
  exact ⟨fun h => h.2, fun h => ⟨⟨p.1, mem_all _, p.2, mem_all _, rfl⟩, h⟩⟩

end Kind

/-! ## §2 Refusals -/

/-- Why a token is refused. -/
inductive Rejection where
  /-- The token may not follow the last one. -/
  | misplaced (last next : Token)
  /-- The line ends in an open bracket, whose partner is given. -/
  | unclosed (opening : Token) (partner : Option Token)
  /-- A closing bracket comes while none is open. -/
  | unopened (closing : Token)
  /-- A closing bracket is not the expected partner of the innermost open one. -/
  | mismatched (opening closing : Token) (expected : Option Token)
deriving DecidableEq, Repr

/-! ## §3 Checking -/

/-- The last accepted token and the open brackets, the innermost first. -/
structure Checker where
  last : Token := .start
  opened : List Token := []
deriving DecidableEq, Repr

namespace Checker

/-- The checker before the first token of a line, whatever it has checked before. -/
def refresh (_ : Checker) : Checker :=
  {}

@[simp] theorem refresh_eq (c : Checker) : c.refresh = {} := rfl

/-- Opens or closes the bracket that a token is. -/
def bracket (g : Grammar) (opened : List Token) (t : Token) : List Token × Option Rejection :=
  match t.kind, opened with
  | .opening, _ => (t :: opened, none)
  | .closing, [] => ([], some (.unopened t))
  | .closing, o :: rest =>
    -- the bracket is closed even if the closing one is wrong
    let expected := g.closingFor? o
    if expected.map (·.toLexeme) = some t.toLexeme then (rest, none)
    else (rest, some (.mismatched o t expected))
  | _, _ => (opened, none)

/-- Why a token may not come now, the bracket that it is aside. -/
def refusal? (g : Grammar) (last : Token) (opened : List Token) (t : Token) : Option Rejection :=
  if last.kind.mayPrecede t.kind then
    -- the right neighbour, but the line may not end inside a bracket
    match t.kind, opened with
    | .finish, o :: _ => some (.unclosed o (g.closingFor? o))
    | _, _ => none
  else some (.misplaced last t)

/-- Checks a token. Its bracket is looked at first, then what it follows, then whether the
    line may end. -/
def check (g : Grammar) (c : Checker) (t : Token) : Checker × Option Rejection :=
  match bracket g c.opened t with
  | (opened, some r) => ({ c with opened }, some r)
  | (opened, none) =>
    match refusal? g c.last opened t with
    | some r => ({ c with opened }, some r)
    | none => (⟨t, opened⟩, none)

end Checker

end Fixity
