import Fixity.Proofs.Text.Spacing

/-!
# Words of isolated and of joined texts

Once the occurrences of a pattern stand alone, no word holds the pattern but the pattern itself.
And where two texts are joined, either the words of the whole are those of the first and then
those of the second, or one word goes over the seam. The same holds if the occurrences of a
pattern are set apart first: an occurrence goes over the seam, or the two texts are treated apart.

## Main statements

- `settled_of_mem_words_isolate`: isolation leaves only words that are the pattern or do not hold it
- `isolate_append_or`, `words_append_or`: what happens at a seam
- `split_of_flatten`: a list of words is cut in two in one way if its characters are
-/

namespace Fixity.Text

variable {p w u v : List Char}

/-! ## §1 Words as parts of a text -/

theorem Cut.part_of_mem {cs : List Char} {ps : List (List Char)} (h : Cut cs ps) :
    ∀ q ∈ ps, q <:+: cs := by
  induction h with
  | nil => simp
  | @blank cs _ b _ _ ih =>
    intro q hq
    exact (ih q hq).trans (List.suffix_cons b cs).isInfix
  | @part cs _ p _ _ _ ih =>
    intro q hq
    rcases List.mem_cons.mp hq with rfl | hq
    · exact (List.prefix_append q cs).isInfix
    · exact (ih q hq).trans (List.suffix_append p cs).isInfix

theorem part_of_mem_words {cs : List Char} (h : w ∈ words cs) : w <:+: cs :=
  (cut_words cs).part_of_mem w h

/-- A part without blanks does not go over a blank. -/
theorem part_append_blank {c : Char} (hw : ∀ d ∈ w, isBlank d = false) (hc : isBlank c = true)
    (h : w <:+: u ++ c :: v) : w <:+: u ∨ w <:+: v := by
  -- a part that starts with the blank holds it
  have hfront : ∀ q : List Char, (∀ d ∈ q, isBlank d = false) → q <+: c :: v → q = [] := by
    intro q hq hqv
    exact List.prefix_nil.mp (prefix_of_append_blank (u := []) hq hc hqv)
  rcases List.infix_append_iff.mp h with h | h | ⟨q, r, rfl, hq, hr⟩
  · exact .inl h
  · rcases List.infix_cons_iff.mp h with h | h
    · rw [hfront w hw h]
      exact .inl List.nil_infix
    · exact .inr h
  · rw [hfront r (fun d hd => hw d (by simp [hd])) hr, List.append_nil]
    exact .inl hq.isInfix

/-- A part without blanks lies in one word. -/
theorem exists_mem_words_of_part {cs : List Char} (hne : w ≠ [])
    (hw : ∀ d ∈ w, isBlank d = false) (h : w <:+: cs) : ∃ x ∈ words cs, w <:+: x := by
  rcases exists_first_blank cs with hcs | ⟨u, c, v, rfl, hu, hc⟩
  · have hnil : cs ≠ [] := by
      rintro rfl
      exact hne (List.infix_nil.mp h)
    exact ⟨cs, by simp [words_eq_singleton hnil hcs], h⟩
  · have hlen : v.length < (u ++ c :: v).length := by simp; omega
    rw [words_append_cons hc]
    rcases part_append_blank hw hc h with h | h
    · have hnil : u ≠ [] := by
        rintro rfl
        exact hne (List.infix_nil.mp h)
      exact ⟨u, by simp [words_eq_singleton hnil hu], h⟩
    · obtain ⟨x, hx, hwx⟩ := exists_mem_words_of_part hne hw h
      exact ⟨x, List.mem_append_right _ hx, hwx⟩
termination_by cs.length

/-! ## §2 What isolation leaves -/

/-- Up to its first occurrence a pattern changes nothing. -/
theorem exists_isolate_first (hne : p ≠ []) {cs : List Char} (h : p <:+: cs) :
    ∃ u v, cs = u ++ (p ++ v) ∧ ¬ p <:+: u ∧
      isolate p cs = u ++ ' ' :: (p ++ ' ' :: isolate p v) := by
  induction cs using induction_on_pattern hne with
  | nil => exact absurd (List.infix_nil.mp h) hne
  | hit cs _ =>
    refine ⟨[], cs, rfl, ?_, isolate_append hne cs⟩
    exact fun hnil => hne (List.infix_nil.mp hnil)
  | miss c cs hmiss ih =>
    obtain ⟨u, v, rfl, hu, hisolate⟩ := ih ((List.infix_cons_iff.mp h).resolve_left hmiss)
    refine ⟨c :: u, v, rfl, ?_, by rw [isolate_cons hmiss, hisolate, List.cons_append]⟩
    -- nor does the pattern occur at the new front
    intro hpu
    rcases List.infix_cons_iff.mp hpu with hpu | hpu
    · exact hmiss (hpu.trans (List.prefix_append (c :: u) (p ++ v)))
    · exact hu hpu

/-- **Isolation leaves only settled words**: the pattern, and words that do not hold it. -/
theorem settled_of_mem_words_isolate (hne : p ≠ []) (hp : ∀ d ∈ p, isBlank d = false)
    {cs : List Char} (hw : w ∈ words (isolate p cs)) : Settled p w := by
  by_cases h : p <:+: cs
  · obtain ⟨u, v, rfl, hu, hisolate⟩ := exists_isolate_first hne h
    have hlen : v.length < (u ++ (p ++ v)).length := by
      have := List.length_pos_iff.mpr hne
      simp only [List.length_append]
      omega
    rw [hisolate, words_append_cons isBlank_space, words_append_cons isBlank_space,
      words_eq_singleton hne hp] at hw
    rcases List.mem_append.mp hw with hw | hw
    · exact .inr fun hpw => hu (hpw.trans (part_of_mem_words hw))
    · rcases List.mem_cons.mp hw with rfl | hw
      · exact .inl rfl
      · exact settled_of_mem_words_isolate hne hp hw
  · rw [isolate_of_absent hne h] at hw
    exact .inr fun hpw => h (hpw.trans (part_of_mem_words hw))
termination_by cs.length

theorem Settled.of_part {x : List Char} (h : Settled p x) (hw : w <:+: x) : Settled p w := by
  rcases h with rfl | h
  · by_cases hxw : x <:+: w
    · exact .inl (List.infix_antisymm hw hxw)
    · exact .inr hxw
  · exact .inr fun hpw => h (hpw.trans hw)

/-- Blanks that are put in leave settled words settled. -/
theorem settled_of_respaced {cs ds : List Char} (hr : Respaced cs ds)
    (h : ∀ x ∈ words cs, Settled p x) : ∀ x ∈ words ds, Settled p x := by
  intro x hx
  obtain ⟨hne, hblank⟩ := mem_words hx
  have hpart : x <:+: cs := (cut_of_respaced (cut_words ds) hr).part_of_mem x hx
  -- the word lies in one of the words that were there before
  obtain ⟨y, hy, hxy⟩ := exists_mem_words_of_part hne hblank hpart
  exact (h y hy).of_part hxy

/-! ## §3 The characters of words -/

/-- The characters of a text that are not blank. -/
def ink (cs : List Char) : List Char :=
  cs.filter fun c => !isBlank c

theorem ink_append (u v : List Char) : ink (u ++ v) = ink u ++ ink v :=
  List.filter_append u v

theorem ink_of_no_blank (hw : ∀ d ∈ w, isBlank d = false) : ink w = w := by
  rw [ink, List.filter_eq_self]
  intro d hd
  simp [hw d hd]

theorem ink_of_blank (hw : ∀ d ∈ w, isBlank d = true) : ink w = [] := by
  rw [ink, List.filter_eq_nil_iff]
  intro d hd
  simp [hw d hd]

theorem Cut.flatten_eq {cs : List Char} {ps : List (List Char)} (h : Cut cs ps) :
    ps.flatten = ink cs := by
  induction h with
  | nil => rfl
  | blank hb _ ih => simpa [ink, hb] using ih
  | part _ hp _ ih => rw [List.flatten_cons, ih, ink_append, ink_of_no_blank hp]

theorem Respaced.ink_eq {cs ds : List Char} (h : Respaced cs ds) : ink ds = ink cs := by
  induction h with
  | nil => rfl
  | keep c _ ih => rw [ink, ink, List.filter_cons, List.filter_cons, ← ink, ← ink, ih]
  | insert hb _ ih => simpa [ink, hb] using ih

/-! ## §4 Seams -/

/-- One of the pieces has characters on both sides of the end of the text `u`. -/
def Straddles (ps : List (List Char)) (u : List Char) : Prop :=
  ∃ before q r after, q ≠ [] ∧ r ≠ [] ∧ ps = before ++ (q ++ r) :: after ∧
    ink u = before.flatten ++ q

/-- Where a list of pieces is cut at the end of the text, no piece goes over it. -/
theorem not_straddles {ps qs : List (List Char)} (h : ps.flatten = ink u) :
    ¬ Straddles (ps ++ qs) u := by
  rintro ⟨before, q, r, after, hq, hr, hsplit, hink⟩
  rw [hink] at h
  rcases List.append_eq_append_iff.mp hsplit with ⟨as, rfl, -⟩ | ⟨bs, rfl, hbs⟩
  · -- too few characters before the cut
    simp [hq] at h
  · cases bs with
    | nil => simp [hq] at h
    | cons b bs =>
      -- too many of them
      rw [List.cons_append, List.cons.injEq] at hbs
      simp [← hbs.1, hr] at h

/-- A list of words that are not empty is cut after a number of characters in one way. -/
theorem split_of_flatten {ps qs us vs : List (List Char)} (hps : ∀ p ∈ ps, p ≠ [])
    (hus : ∀ u ∈ us, u ≠ []) (h : ps ++ qs = us ++ vs) (hflat : ps.flatten = us.flatten) :
    ps = us ∧ qs = vs := by
  rcases List.append_eq_append_iff.mp h with ⟨as, rfl, rfl⟩ | ⟨bs, rfl, rfl⟩
  · have hnil : ∀ a ∈ as, a = [] := by simpa using hflat
    cases as with
    | nil => simp
    | cons a as => exact absurd (hnil a (by simp)) (hus a (by simp))
  · have hnil : ∀ b ∈ bs, b = [] := by simpa using hflat
    cases bs with
    | nil => simp
    | cons b bs => exact absurd (hnil b (by simp)) (hps b (by simp))

/-- At a seam a pattern is looked for in each of the two texts, or it goes over the seam. -/
theorem isolate_append_or (hne : p ≠ []) (u v : List Char) :
    isolate p (u ++ v) = isolate p u ++ isolate p v ∨
      ∃ u' q r v', q ≠ [] ∧ r ≠ [] ∧ p = q ++ r ∧ u = u' ++ q ∧ v = r ++ v' ∧
        isolate p (u ++ v) = isolate p u' ++ ' ' :: (p ++ ' ' :: isolate p v') := by
  induction u using induction_on_pattern hne with
  | nil => exact .inl rfl
  | hit u ih =>
    rw [List.append_assoc, isolate_append hne, isolate_append hne]
    rcases ih with ih | ⟨u', q, r, v', hq, hr, hp, rfl, rfl, ih⟩
    · exact .inl (by simp [ih])
    · refine .inr ⟨p ++ u', q, r, v', hq, hr, hp, by simp, rfl, ?_⟩
      rw [isolate_append hne, ih]
      simp
  | miss c u hmiss ih =>
    by_cases hover : p <+: c :: (u ++ v)
    · -- the pattern starts before the seam and ends behind it
      obtain ⟨v', hv'⟩ := hover
      rw [← List.cons_append] at hv'
      rcases List.append_eq_append_iff.mp hv' with ⟨as, has, -⟩ | ⟨r, hr, rfl⟩
      · exact absurd ⟨as, has.symm⟩ hmiss
      · refine .inr ⟨[], c :: u, r, v', by simp, ?_, hr, rfl, rfl, ?_⟩
        · rintro rfl
          exact hmiss ⟨[], by simpa using hr⟩
        · rw [← hv', isolate_append hne, isolate_nil, List.nil_append]
    · rw [List.cons_append, isolate_cons hover, isolate_cons hmiss]
      rcases ih with ih | ⟨u', q, r, v', hq, hr, hp, rfl, rfl, ih⟩
      · exact .inl (by rw [ih, List.cons_append])
      · have hmiss' : ¬ p <+: c :: u' := by
          intro h
          exact hmiss (h.trans (List.prefix_append (c :: u') q))
        refine .inr ⟨c :: u', q, r, v', hq, hr, hp, rfl, rfl, ?_⟩
        rw [isolate_cons hmiss', ih, List.cons_append]

theorem straddles_of_hit {q r u' : List Char} {ps qs : List (List Char)} (hq : q ≠ [])
    (hr : r ≠ []) (hblank : ∀ d ∈ q, isBlank d = false) (hps : ps.flatten = ink u') :
    Straddles (ps ++ (q ++ r) :: qs) (u' ++ q) :=
  ⟨ps, q, r, qs, hq, hr, rfl, by rw [ink_append, ink_of_no_blank hblank, hps]⟩

/-- The characters at the front of a text belong to the word of those that are put before it. -/
theorem exists_front (cs : List Char) :
    ∃ r rest, cs = r ++ rest ∧ ∀ u, (∀ d ∈ u, isBlank d = false) → u ++ r ≠ [] →
      words (u ++ cs) = (u ++ r) :: words rest := by
  rcases exists_first_blank cs with hcs | ⟨r, c, v, rfl, hr, hc⟩
  · refine ⟨cs, [], by simp, ?_⟩
    intro u hu hne
    apply words_eq_singleton hne
    intro d hd
    exact (List.mem_append.mp hd).elim (hu d) (hcs d)
  · refine ⟨r, c :: v, rfl, ?_⟩
    intro u hu hne
    have hword : words (u ++ r) = [u ++ r] := by
      apply words_eq_singleton hne
      intro d hd
      exact (List.mem_append.mp hd).elim (hu d) (hr d)
    rw [← List.append_assoc, words_append_cons hc, words_cons_blank hc, hword]
    rfl

/-- At a seam the words of two texts follow each other, or a word goes over the seam. -/
theorem words_append_or (u v : List Char) :
    words (u ++ v) = words u ++ words v ∨ Straddles (words (u ++ v)) u := by
  rcases exists_first_blank u with hu | ⟨u', c, u'', rfl, hu', hc⟩
  · by_cases hnil : u = []
    · exact .inl (by simp [hnil])
    · -- the word before the seam ends there, or goes on behind it
      obtain ⟨r, rest, rfl, hfront⟩ := exists_front v
      rw [hfront u hu (by simp [hnil])]
      by_cases hr : r = []
      · exact .inl (by simp [hr, words_eq_singleton hnil hu])
      · exact .inr ⟨[], u, r, _, hnil, hr, rfl, ink_of_no_blank hu⟩
  · have hlen : u''.length < (u' ++ c :: u'').length := by simp; omega
    rw [List.append_assoc, List.cons_append, words_append_cons hc, words_append_cons hc]
    rcases words_append_or u'' v with h | ⟨before, q, r, after, hq, hr, hsplit, hink⟩
    · exact .inl (by rw [h, List.append_assoc])
    · -- what stands before the blank comes before the word as well
      refine .inr ⟨words u' ++ before, q, r, after, hq, hr, by simp [hsplit], ?_⟩
      have hblank : ink (c :: u'') = ink u'' := by simp [ink, hc]
      rw [ink_append, hblank, hink, List.flatten_append, (cut_words u').flatten_eq,
        List.append_assoc]
termination_by u.length

end Fixity.Text
