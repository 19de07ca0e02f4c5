import Fixity.Span

/-!
# Caret lines

The line below a quoted line, with a caret under every marked character, and the list of the
marked offsets.

## Main statements

- `carets?_eq_none_iff`: there is no caret line only if some span ends before it starts
- `allMarks?_eq_none_iff`: and the marked offsets are missing in just this case
-/

namespace Fixity

namespace Span

/-! ## §1 Caret lines -/

/-- Whether there is a caret for a span at an offset: at every offset inside it, or where it
    stands if it is empty. -/
def hasCaret (s : Span) (i : Int) : Bool :=
  if s.start < s.stop then s.start ≤ i && i < s.stop else i = s.start

/-- The offset of the last caret for a span. -/
def lastCaret (s : Span) : Int :=
  if s.start < s.stop then s.stop - 1 else s.start

/-- A caret at each marked offset, a space elsewhere, as far as the last caret and at least over
    the given width; then without the spaces at the end. Offsets before the line are not shown. -/
def carets? (spans : List Span) (width : Int) : Option String :=
  if spans.all (·.length?.isSome) then
    match (spans.map lastCaret).max? with
    | none => some ""
    | some last =>
      let length := (max width (last + 1)).toNat
      let cell (i : Nat) : Char := if spans.any (·.hasCaret i) then '^' else ' '
      let cells := (List.range length).map cell
      some (String.ofList (cells.reverse.dropWhile (· = ' ')).reverse)
  else none

theorem carets?_eq_none_iff {spans : List Span} {width : Int} :
    carets? spans width = none ↔ ∃ s ∈ spans, s.stop < s.start := by
  unfold carets?
  split
  · next h =>
    have hlen : ∀ s ∈ spans, ¬ s.stop < s.start := fun s hs => by
      have := List.all_eq_true.1 h s hs
      rw [← length?_eq_none_iff]
      exact Option.isSome_iff_ne_none.1 this
    have hno : ¬ ∃ s ∈ spans, s.stop < s.start := fun ⟨s, hs, hlt⟩ => hlen s hs hlt
    split <;> simp [hno]
  · next h =>
    obtain ⟨s, hs, hlt⟩ := List.all_eq_false.1 (Bool.eq_false_iff.2 h)
    rw [Option.not_isSome_iff_eq_none, length?_eq_none_iff] at hlt
    simpa using ⟨s, hs, hlt⟩

theorem exists_carets? {spans : List Span} (h : ∀ s ∈ spans, s.start ≤ s.stop) (width : Int) :
    ∃ carets, carets? spans width = some carets := by
  apply Option.ne_none_iff_exists'.mp
  intro hnone
  obtain ⟨s, hs, hlt⟩ := carets?_eq_none_iff.mp hnone
  exact absurd (h s hs) (Int.not_le.mpr hlt)

/-! ## §2 Marked offsets -/

/-- The offsets that several spans mark, span by span, if all of them have a length. -/
def allMarks? : List Span → Option (List Int)
  | [] => some []
  | s :: ss =>
    match s.marks?, allMarks? ss with
    | some m, some ms => some (m ++ ms)
    | _, _ => none

theorem allMarks?_eq_none_iff {ss : List Span} :
    allMarks? ss = none ↔ ∃ s ∈ ss, s.stop < s.start := by
  induction ss with
  | nil => simp [allMarks?]
  | cons s ss ih =>
    have hs := s.marks?_eq_none_iff
    simp only [List.mem_cons, exists_eq_or_imp, ← ih, ← hs, allMarks?]
    cases s.marks? <;> cases allMarks? ss <;> simp

end Span

end Fixity
