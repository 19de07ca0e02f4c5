import Fixity.Text.Blank
import Fixity.Text.Search
import Mathlib.Data.List.Infix

/-!
# Blanks put into a text

To let the occurrences of a pattern stand alone, spaces are put into a text and nothing else is
changed. So the words of the new text lie in the old one in the same order, with nothing but
blanks between them, and the two texts have the same words if every word is either the pattern
or does not hold it.

## Main statements

- `isolate_append_blank`: a blank cuts a text into two that are treated apart
- `cut_of_respaced`: the words of a text with more blanks lie in the text with fewer blanks
- `words_isolate`: words that are the pattern or do not hold it stay
-/

namespace Fixity.Text

/-! ## §1 The recursion behind isolation -/

theorem isBlank_space : isBlank ' ' = true := by decide

theorem isolate_nil (p : List Char) : isolate p [] = [] := rfl

theorem isolate_append {p : List Char} (hp : p ≠ []) (cs : List Char) :
    isolate p (p ++ cs) = ' ' :: (p ++ ' ' :: isolate p cs) := by
  obtain ⟨c, q, rfl⟩ := List.exists_cons_of_ne_nil hp
  have hprefix : (c :: q).isPrefixOf (c :: (q ++ cs)) = true := by
    rw [List.isPrefixOf_iff_prefix]
    exact List.prefix_append (c :: q) cs
  -- the rest of the occurrence is copied without a look for others
  rw [List.cons_append, isolate, isolateFrom, if_pos hprefix, isolate_skip]
  simp

theorem isolate_cons {p : List Char} {c : Char} {cs : List Char} (h : ¬ p <+: c :: cs) :
    isolate p (c :: cs) = c :: isolate p cs := by
  have hprefix : ¬ p.isPrefixOf (c :: cs) = true := mt List.isPrefixOf_iff_prefix.mp h
  rw [isolate, isolateFrom, if_neg hprefix, isolate]

/-- A text ends, or starts with the pattern, or starts with a character that is passed over. -/
theorem induction_on_pattern {p : List Char} (hp : p ≠ []) {motive : List Char → Prop}
    (nil : motive []) (hit : ∀ cs, motive cs → motive (p ++ cs))
    (miss : ∀ c cs, ¬ p <+: c :: cs → motive cs → motive (c :: cs)) (cs : List Char) :
    motive cs := by
  match cs with
  | [] => exact nil
  | c :: cs =>
    by_cases h : p <+: c :: cs
    · obtain ⟨rest, hrest⟩ := h
      -- behind the occurrence less is left, as the pattern is not empty
      have hlen : rest.length < (c :: cs).length := by
        have := List.length_pos_iff.mpr hp
        rw [← hrest, List.length_append]
        omega
      rw [List.length_cons] at hlen
      rw [← hrest]
      exact hit rest (induction_on_pattern hp nil hit miss rest)
    · exact miss c cs h (induction_on_pattern hp nil hit miss cs)
termination_by cs.length
decreasing_by
  · simp only [List.length_cons]
    omega
  · simp

/-! ## §2 Isolation at a blank -/

theorem prefix_of_append_blank {p u v : List Char} {c : Char}
    (hp : ∀ d ∈ p, isBlank d = false) (hc : isBlank c = true) (h : p <+: u ++ c :: v) :
    p <+: u := by
  rcases List.prefix_or_prefix_of_prefix h (List.prefix_append u (c :: v)) with hpu | ⟨q, rfl⟩
  · exact hpu
  · -- what the pattern has beyond `u` would start with the blank
    have hq : q <+: c :: v := (List.prefix_append_right_inj u).mp h
    rcases List.prefix_cons_iff.mp hq with rfl | ⟨r, rfl, -⟩
    · simp
    · have := hp c (by simp)
      simp [hc] at this

/-- What stands before a blank and what stands behind it do not matter to each other. -/
theorem isolate_append_blank {p v : List Char} {c : Char} (hne : p ≠ [])
    (hp : ∀ d ∈ p, isBlank d = false) (hc : isBlank c = true) (u : List Char) :
    isolate p (u ++ c :: v) = isolate p u ++ c :: isolate p v := by
  induction u using induction_on_pattern hne with
  | nil =>
    -- an occurrence does not start with a blank
    have hmiss : ¬ p <+: c :: v := by
      intro h
      exact hne (List.prefix_nil.mp (prefix_of_append_blank (u := []) hp hc h))
    rw [List.nil_append, isolate_cons hmiss, isolate_nil, List.nil_append]
  | hit u ih =>
    rw [List.append_assoc, isolate_append hne, isolate_append hne, ih]
    simp
  | miss d u hmiss ih =>
    -- nor does it go over one, so it would have been there before
    have hmiss' : ¬ p <+: d :: (u ++ c :: v) := by
      intro h
      exact hmiss (prefix_of_append_blank (u := d :: u) hp hc h)
    rw [List.cons_append, isolate_cons hmiss', isolate_cons hmiss, ih, List.cons_append]

theorem isolate_of_absent {p : List Char} (hne : p ≠ []) {cs : List Char}
    (h : ¬ p <:+: cs) : isolate p cs = cs := by
  induction cs using induction_on_pattern hne with
  | nil => rfl
  | hit cs _ => exact absurd (List.prefix_append p cs).isInfix h
  | miss c cs hmiss ih =>
    rw [isolate_cons hmiss, ih fun hcs => h (hcs.trans (List.suffix_cons c cs).isInfix)]

/-! ## §3 Words that stay -/

/-- A word that is the pattern, or does not hold it, is not taken apart. -/
def Settled (p w : List Char) : Prop :=
  w = p ∨ ¬ p <:+: w

theorem words_isolate_word {p w : List Char} (hne : p ≠ []) (hw : w ≠ [])
    (hblank : ∀ c ∈ w, isBlank c = false) (h : Settled p w) : words (isolate p w) = [w] := by
  rcases h with rfl | h
  · -- the pattern itself gets a blank on either side
    have hisolate := isolate_append hne []
    rw [List.append_nil, isolate_nil] at hisolate
    rw [hisolate, words_cons_blank isBlank_space, words_append_cons isBlank_space,
      words_eq_singleton hw hblank]
    simp
  · rw [isolate_of_absent hne h, words_eq_singleton hw hblank]

theorem words_isolate {p : List Char} (hne : p ≠ []) (hp : ∀ d ∈ p, isBlank d = false)
    (cs : List Char) (h : ∀ w ∈ words cs, Settled p w) : words (isolate p cs) = words cs := by
  -- the first blank cuts off one word or nothing, and what is behind it is shorter
  rcases exists_first_blank cs with hcs | ⟨u, c, v, rfl, hu, hc⟩
  · by_cases hnil : cs = []
    · rw [hnil, isolate_nil]
    · have hword := words_eq_singleton hnil hcs
      rw [hword] at h ⊢
      exact words_isolate_word hne hnil hcs (h cs (by simp))
  · have hlen : v.length < (u ++ c :: v).length := by simp; omega
    rw [words_append_cons hc] at h ⊢
    have hleft : words (isolate p u) = words u := by
      by_cases hnil : u = []
      · rw [hnil, isolate_nil]
      · have hword := words_eq_singleton hnil hu
        rw [hword] at h ⊢
        exact words_isolate_word hne hnil hu (h u (by simp))
    have hright := words_isolate hne hp v fun w hw => h w (List.mem_append_right _ hw)
    rw [isolate_append_blank hne hp hc, words_append_cons hc, hleft, hright]
termination_by cs.length

/-! ## §4 Where the words of a respaced text lie -/

/-- The second text is the first one with blanks put in. -/
inductive Respaced : List Char → List Char → Prop where
  | nil : Respaced [] []
  | keep {cs ds : List Char} (c : Char) : Respaced cs ds → Respaced (c :: cs) (c :: ds)
  | insert {cs ds : List Char} {b : Char} :
      isBlank b = true → Respaced cs ds → Respaced cs (b :: ds)

theorem Respaced.append_left {cs ds : List Char} (p : List Char) (h : Respaced cs ds) :
    Respaced (p ++ cs) (p ++ ds) := by
  induction p with
  | nil => exact h
  | cons c p ih => exact .keep c ih

theorem respaced_isolate {p : List Char} (hne : p ≠ []) (cs : List Char) :
    Respaced cs (isolate p cs) := by
  induction cs using induction_on_pattern hne with
  | nil => exact .nil
  | hit cs ih =>
    rw [isolate_append hne]
    exact .insert isBlank_space ((Respaced.insert isBlank_space ih).append_left p)
  | miss c cs hmiss ih =>
    rw [isolate_cons hmiss]
    exact ih.keep c

/-- A text consists of the given blank-free parts with nothing but blanks around them. -/
inductive Cut : List Char → List (List Char) → Prop where
  | nil : Cut [] []
  | blank {cs : List Char} {ps : List (List Char)} {b : Char} :
      isBlank b = true → Cut cs ps → Cut (b :: cs) ps
  | part {cs : List Char} {ps : List (List Char)} {p : List Char} :
      p ≠ [] → (∀ c ∈ p, isBlank c = false) → Cut cs ps → Cut (p ++ cs) (p :: ps)

/-- Before the first part stand only blanks. -/
theorem Cut.exists_gap {cs p : List Char} {ps : List (List Char)} (h : Cut cs (p :: ps)) :
    ∃ gap rest, cs = gap ++ (p ++ rest) ∧ (∀ c ∈ gap, isBlank c = true) ∧ p ≠ [] ∧
      (∀ c ∈ p, isBlank c = false) ∧ Cut rest ps := by
  generalize hparts : p :: ps = parts at h
  induction h with
  | nil => simp at hparts
  | @blank cs _ b hb _ ih =>
    obtain ⟨gap, rest, rfl, hgap, hne, hp, hcut⟩ := ih hparts
    exact ⟨b :: gap, rest, rfl, by simpa [hb] using hgap, hne, hp, hcut⟩
  | @part cs _ q hne hp h _ =>
    obtain ⟨rfl, rfl⟩ := List.cons.inj hparts
    exact ⟨[], cs, rfl, by simp, hne, hp, h⟩

/-- A text without parts consists of blanks. -/
theorem Cut.isBlank_of_nil {cs : List Char} (h : Cut cs []) : ∀ c ∈ cs, isBlank c = true := by
  generalize hparts : [] = parts at h
  induction h with
  | nil => simp
  | blank hb _ ih => simpa [hb] using ih hparts
  | part _ _ _ _ => simp at hparts

theorem Cut.append_blank {u v : List Char} {c : Char} {ps : List (List Char)}
    (hu : ∀ d ∈ u, isBlank d = false) (hc : isBlank c = true) (h : Cut v ps) :
    Cut (u ++ c :: v) (words u ++ ps) := by
  by_cases hnil : u = []
  · simpa [hnil] using h.blank hc
  · rw [words_eq_singleton hnil hu]
    exact .part hnil hu (h.blank hc)

theorem cut_words (cs : List Char) : Cut cs (words cs) := by
  rcases exists_first_blank cs with hcs | ⟨u, c, v, rfl, hu, hc⟩
  · -- without a blank the text is one word, or empty
    by_cases hnil : cs = []
    · rw [hnil]
      exact .nil
    · rw [words_eq_singleton hnil hcs]
      simpa using Cut.nil.part hnil hcs
  · have hlen : v.length < (u ++ c :: v).length := by simp; omega
    rw [words_append_cons hc]
    exact (cut_words v).append_blank hu hc
termination_by cs.length

/-- Between the characters of a blank-free part nothing was put in. -/
theorem Respaced.of_append {cs ds p : List Char} (hp : ∀ c ∈ p, isBlank c = false)
    (hne : p ≠ []) (h : Respaced cs (p ++ ds)) : ∃ cs', cs = p ++ cs' ∧ Respaced cs' ds := by
  induction p generalizing cs with
  | nil => exact absurd rfl hne
  | cons c p ih =>
    cases h with
    | insert hb _ =>
      -- the blank would be a character of the part
      simp [hp c (by simp)] at hb
    | keep _ h =>
      by_cases hnil : p = []
      · -- behind the last character blanks may follow again
        subst hnil
        exact ⟨_, rfl, h⟩
      · obtain ⟨cs', rfl, h'⟩ := ih (fun d hd => hp d (by simp [hd])) hnil h
        exact ⟨cs', rfl, h'⟩

theorem cut_of_respaced {cs ds : List Char} {ps : List (List Char)} (h : Cut ds ps)
    (hr : Respaced cs ds) : Cut cs ps := by
  induction h generalizing cs with
  | nil =>
    cases hr
    exact .nil
  | blank hb _ ih =>
    -- the blank was there before, or it is one of those that were put in
    cases hr with
    | keep _ hr => exact (ih hr).blank hb
    | insert _ hr => exact ih hr
  | part hne hp _ ih =>
    obtain ⟨cs', rfl, hr'⟩ := hr.of_append hp hne
    exact (ih hr').part hne hp

end Fixity.Text
