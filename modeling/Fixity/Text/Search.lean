/-!
# Occurrences in a text

Where a pattern first occurs in a text, whether it occurs at all, and the text in which every
occurrence of it stands alone between two spaces.

## Main statements

- `occurs_iff`: a pattern occurs in a text iff the text is something, the pattern, something
- `isolate_skip`: to skip characters is to drop them
-/

namespace Fixity.Text

/-! ## §1 The first occurrence -/

/-- The number of characters before the first occurrence of a pattern. -/
def find? (pattern : List Char) : List Char → Option Nat
  | [] => if pattern.isEmpty then some 0 else none
  | c :: cs => if pattern.isPrefixOf (c :: cs) then some 0 else (find? pattern cs).map (· + 1)

/-- Whether a pattern is a part of a text. -/
def occurs (pattern cs : List Char) : Bool :=
  (find? pattern cs).isSome

theorem occurs_nil_right {pattern : List Char} : occurs pattern [] = true ↔ pattern = [] := by
  cases pattern <;> simp [occurs, find?]

theorem occurs_cons {pattern : List Char} {c : Char} {cs : List Char} :
    occurs pattern (c :: cs) = true ↔ pattern <+: c :: cs ∨ occurs pattern cs = true := by
  simp only [occurs, find?]
  split
  · next h => simp [List.isPrefixOf_iff_prefix.1 h]
  · next h => simp [mt List.isPrefixOf_iff_prefix.2 h]

theorem occurs_iff {pattern cs : List Char} :
    occurs pattern cs = true ↔ pattern <:+: cs := by
  induction cs with
  | nil => simp [occurs_nil_right]
  | cons c cs ih => rw [occurs_cons, ih, List.infix_cons_iff]

/-! ## §2 Occurrences that stand alone -/

/-- Puts a space on both sides of every occurrence of a pattern, taking occurrences from the
    left and without overlap; the first `skip` characters are already written. -/
def isolateFrom (pattern : List Char) : (skip : Nat) → List Char → List Char
  | _, [] => []
  | skip + 1, _ :: cs => isolateFrom pattern skip cs
  | 0, c :: cs =>
    if pattern.isPrefixOf (c :: cs) then
      ' ' :: pattern ++ ' ' :: isolateFrom pattern (pattern.length - 1) cs
    else c :: isolateFrom pattern 0 cs

/-- A text in which every occurrence of a pattern has a space on both sides. -/
def isolate (pattern cs : List Char) : List Char :=
  isolateFrom pattern 0 cs

theorem isolate_skip (pattern : List Char) (skip : Nat) (cs : List Char) :
    isolateFrom pattern skip cs = isolate pattern (cs.drop skip) := by
  induction cs generalizing skip with
  | nil => cases skip <;> simp [isolate, isolateFrom]
  | cons c cs ih =>
    cases skip with
    | zero => rfl
    | succ k => simp [isolateFrom, ih]

end Fixity.Text
