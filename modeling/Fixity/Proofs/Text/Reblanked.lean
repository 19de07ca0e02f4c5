import Fixity.Proofs.Text.Spacing
import Mathlib.Logic.Relation

/-!
# Texts that differ in their blanks only

A run of blanks may give way to another one, which is longer or shorter or consists of other
blanks. Inside a text neither run is empty, as the words around an empty one would be a single
word; at the two ends of a text either may be. Whatever is done to a text in this way, its words
stay. And every text can be brought into one form in this way, its words with single spaces between
them, so nothing else can be changed without a change of the words.

## Main statements

- `words_append_run`: a run of blanks cuts a text into two
- `words_eq_iff`: two texts have the same words iff they differ in their runs of blanks only
-/

namespace Fixity.Text

open Relation

/-! ## §1 Runs of blanks -/

/-- Nothing but blanks, and perhaps nothing at all. -/
def IsRun (w : List Char) : Prop :=
  ∀ c ∈ w, isBlank c = true

instance (w : List Char) : Decidable (IsRun w) :=
  List.decidableBAll _ w

theorem isRun_nil : IsRun [] := by
  simp [IsRun]

theorem isRun_singleton {c : Char} (h : isBlank c = true) : IsRun [c] := by
  simp [IsRun, h]

theorem words_run_append {w : List Char} (hw : IsRun w) (v : List Char) :
    words (w ++ v) = words v := by
  induction w with
  | nil => rfl
  | cons c w ih =>
    rw [List.cons_append, words_cons_blank (hw c (by simp))]
    apply ih
    intro d hd
    exact hw d (by simp [hd])

/-- **A run of blanks cuts a text into two**, unless it is empty. -/
theorem words_append_run {w : List Char} (hw : IsRun w) (hne : w ≠ []) (u v : List Char) :
    words (u ++ (w ++ v)) = words u ++ words v := by
  obtain ⟨c, w, rfl⟩ := List.exists_cons_of_ne_nil hne
  have hrest : IsRun w := fun d hd => hw d (by simp [hd])
  rw [List.cons_append, words_append_cons (hw c (by simp)), words_run_append hrest]

theorem words_append_run_nil {w : List Char} (hw : IsRun w) (u : List Char) :
    words (u ++ w) = words u := by
  by_cases hne : w = []
  · rw [hne, List.append_nil]
  · have hcut := words_append_run hw hne u []
    simpa using hcut

/-! ## §2 Changing one run -/

/-- The second text is the first one with a run of blanks in the place of another. An empty run is
at one of the ends of the text. -/
inductive Reblanks : List Char → List Char → Prop where
  | run {u w w' v : List Char} : IsRun w → IsRun w' → (w = [] ∨ w' = [] → u = [] ∨ v = []) →
      Reblanks (u ++ (w ++ v)) (u ++ (w' ++ v))

theorem Reblanks.words_eq {cs ds : List Char} (h : Reblanks cs ds) : words cs = words ds := by
  obtain @⟨u, w, w', v, hw, hw', hends⟩ := h
  by_cases hnil : w = [] ∨ w' = []
  · -- what is at an end of the text belongs to no word
    rcases hends hnil with rfl | rfl
    · rw [List.nil_append, List.nil_append, words_run_append hw, words_run_append hw']
    · rw [List.append_nil, List.append_nil, words_append_run_nil hw, words_append_run_nil hw']
  · obtain ⟨hne, hne'⟩ := not_or.mp hnil
    rw [words_append_run hw hne, words_append_run hw' hne']

instance : Std.Symm Reblanks where
  symm _ _ := fun ⟨hw, hw', hends⟩ => .run hw' hw fun hnil => hends hnil.symm

/-- Behind a blank a run can be changed as in a text of its own: where it is empty, the blank goes
with it. -/
theorem Reblanks.append_blank {cs ds : List Char} {c : Char} (hc : isBlank c = true)
    (h : Reblanks cs ds) (u : List Char) : Reblanks (u ++ c :: cs) (u ++ c :: ds) := by
  obtain @⟨x, w, w', v, hw, hw', hends⟩ := h
  cases x with
  | nil =>
    have hrun {y : List Char} (hy : IsRun y) : IsRun (c :: y) :=
      List.forall_mem_cons.mpr ⟨hc, hy⟩
    exact @Reblanks.run u (c :: w) (c :: w') v (hrun hw) (hrun hw') (by simp)
  | cons d x =>
    have hchange := @Reblanks.run (u ++ c :: d :: x) w w' v hw hw'
      fun hnil => .inr ((hends hnil).resolve_left (by simp))
    simpa using hchange

/-! ## §3 The form with single spaces -/

/-- Every text is brought into the form with single spaces between its words. -/
theorem reblanks_intercalate (cs : List Char) :
    ReflTransGen Reblanks cs ([' '].intercalate (words cs)) := by
  rcases exists_first_blank cs with hcs | ⟨u, c, v, rfl, hu, hc⟩
  · -- without a blank the text has this form
    by_cases hnil : cs = []
    · rw [hnil]
      exact .refl
    · rw [words_eq_singleton hnil hcs]
      simpa using ReflTransGen.refl
  · have hlen : v.length < (u ++ c :: v).length := by simp; omega
    have hrest : ReflTransGen Reblanks (u ++ c :: v)
        (u ++ c :: [' '].intercalate (words v)) := by
      apply (reblanks_intercalate v).lift (fun cs => u ++ c :: cs)
      intro cs ds h
      exact h.append_blank hc u
    refine hrest.tail ?_
    -- the first blank goes, or gives way to a space
    rw [words_append_cons hc]
    by_cases hnil : u = []
    · rw [hnil]
      exact @Reblanks.run [] [c] [] _ (isRun_singleton hc) isRun_nil (by simp)
    · rw [words_eq_singleton hnil hu]
      cases hwords : words v with
      | nil =>
        have hchange := @Reblanks.run u [c] [] [] (isRun_singleton hc) isRun_nil (by simp)
        simpa using hchange
      | cons x xs =>
        have hchange := @Reblanks.run u [c] [' '] ([' '].intercalate (x :: xs))
          (isRun_singleton hc) (isRun_singleton isBlank_space) (by simp)
        simpa [List.intercalate] using hchange
termination_by cs.length

/-- **Two texts have the same words iff they differ in their runs of blanks only.** -/
theorem words_eq_iff {cs ds : List Char} :
    words cs = words ds ↔ ReflTransGen Reblanks cs ds := by
  constructor
  · intro h
    -- the common form is left on the way on which the second text comes to it
    have hds : ReflTransGen Reblanks ([' '].intercalate (words ds)) ds :=
      symm (reblanks_intercalate ds)
    rw [← h] at hds
    exact (reblanks_intercalate cs).trans hds
  · intro h
    induction h with
    | refl => rfl
    | tail _ hstep ih => rw [ih, hstep.words_eq]

end Fixity.Text
