/-!
# Spans

The range of characters that a token takes up in its line. A span may be given with its end
before its start; such a span has no length, and whoever needs the length must say what
happens then.

## Main statements

- `length?_eq_none_iff`: only a span that ends before it starts has no length
- `marks?_eq_none_iff`: and only such a span marks nothing
-/

namespace Fixity

/-- The characters from `start` up to, not including, `stop`, of line `line`. Offsets count
    from zero, lines from one. -/
structure Span where
  start : Int
  stop : Int
  line : Int := 1
deriving DecidableEq, Repr

namespace Span

/-! ## §1 Measures -/

/-- The column of the first character, counted from one. -/
def column (s : Span) : Int :=
  s.start + 1

/-- The offsets inside a span, in increasing order. -/
def offsets (s : Span) : List Int :=
  (List.range (s.stop - s.start).toNat).map fun (i : Nat) => s.start + i

/-- The number of characters, if the span does not end before it starts. -/
def length? (s : Span) : Option Nat :=
  if s.stop < s.start then none else some (s.stop - s.start).toNat

/-- The position as `line:column`. -/
def position (s : Span) : String :=
  s!"{s.line}:{s.column}"

/-! ## §2 Marks -/

/-- The offsets that a marker line shows for a span: those inside it, or where it stands if it
    is empty. -/
def marks? (s : Span) : Option (List Int) :=
  s.length?.map fun n => if n = 0 then [s.start] else s.offsets

theorem length?_eq_none_iff {s : Span} : s.length? = none ↔ s.stop < s.start := by
  simp [length?]

theorem marks?_eq_none_iff {s : Span} : s.marks? = none ↔ s.stop < s.start := by
  simp [marks?, length?_eq_none_iff]

end Span

end Fixity
