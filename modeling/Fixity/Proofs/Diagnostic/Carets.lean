import Fixity.ParseError
import Mathlib.Data.List.DropRight

/-!
# Carets and offsets

The caret line below a quoted line and the list of the marked offsets are computed apart, the one
cell by cell and cut behind its last caret, the other span by span and sorted. Both say the same of
every offset: it is marked if some span has a caret there.

## Main statements

- `Span.shows_carets?`: a caret line has its carets at the marked offsets, and ends in one
- `ParseError.mem_offsets?`: the offsets of a parse error are the marked ones
- `ParseError.min?_offsets`: the first of them is where the first span starts
- `carets_agree`: a caret line shows the offsets of every error with the same spans
-/

namespace Fixity

/-! ## §1 Caret lines -/

/-- A line below a text that has a caret at some offsets, blanks at the others, and no blank at its
end. -/
structure Shows (carets : String) (marked : Int → Prop) : Prop where
  caret_iff : ∀ i : Nat, carets.toList[i]? = some '^' ↔ marked i
  cells : ∀ c ∈ carets.toList, c = '^' ∨ c = ' '
  last : ∀ c ∈ carets.toList.getLast?, c = '^'

/-- A line that shows an offset is not empty. -/
theorem Shows.getLast?_eq {carets : String} {marked : Int → Prop} (h : Shows carets marked)
    {i : Nat} (hi : marked i) : carets.toList.getLast? = some '^' := by
  have hmem := List.mem_of_getElem? ((h.caret_iff i).mpr hi)
  obtain ⟨c, hc⟩ := Option.ne_none_iff_exists'.mp
    (mt List.getLast?_eq_none_iff.mp (List.ne_nil_of_mem hmem))
  rw [hc, h.last c hc]

/-- What is cut off at the end of a list are elements of one sort, so the others stay. -/
theorem getElem?_rdropWhile {α : Type} {p : α → Bool} {l : List α} {a : α} (ha : p a = false)
    (i : Nat) : (l.rdropWhile p)[i]? = some a ↔ l[i]? = some a := by
  have hparts : l.rdropWhile p ++ l.rtakeWhile p = l := List.rdropWhile_append_rtakeWhile
  conv_rhs => rw [← hparts]
  rcases Nat.lt_or_ge i (l.rdropWhile p).length with hlt | hge
  · rw [List.getElem?_append_left hlt]
  · rw [List.getElem?_append_right hge, List.getElem?_eq_none hge]
    refine iff_of_false (by simp) fun h => ?_
    have := List.mem_rtakeWhile_imp (List.mem_of_getElem? h)
    simp [ha] at this

/-- Cells as far as the last caret at least, then without the blanks at the end. -/
theorem shows_cells (marked : Int → Bool) {length : Nat}
    (h : ∀ i : Nat, marked i = true → i < length) :
    Shows (String.ofList (((List.range length).map fun (i : Nat) =>
      if marked i then '^' else ' ').rdropWhile (· = ' '))) (marked · = true) := by
  refine ⟨fun i => ?_, fun c hc => ?_, fun c hc => ?_⟩
  · rw [String.toList_ofList, getElem?_rdropWhile (by decide), List.getElem?_map]
    rcases Nat.lt_or_ge i length with hlt | hge
    · simp [hlt]
    · have hunmarked : ¬ marked i = true := fun hi => absurd (h i hi) (Nat.not_lt.mpr hge)
      simp [hge, hunmarked]
  · rw [String.toList_ofList] at hc
    obtain ⟨i, -, rfl⟩ := List.mem_map.mp ((List.rdropWhile_prefix _ _).subset hc)
    split <;> simp
  · rw [String.toList_ofList] at hc
    obtain ⟨hne, rfl⟩ := List.mem_getLast?_eq_getLast hc
    -- the last cell is none that is cut off
    have hlast := List.rdropWhile_last_not _ _ hne
    obtain ⟨i, -, hi⟩ := List.mem_map.mp
      ((List.rdropWhile_prefix _ _).subset (List.getLast_mem hne))
    rw [← hi] at hlast ⊢
    split at hlast <;> simp_all

namespace Span

theorem hasCaret_start (s : Span) : s.hasCaret s.start = true := by
  unfold hasCaret
  split <;> simp_all

theorem start_le_of_hasCaret {s : Span} {i : Int} (h : s.hasCaret i = true) : s.start ≤ i := by
  unfold hasCaret at h
  split at h <;> simp at h <;> omega

theorem le_lastCaret_of_hasCaret {s : Span} {i : Int} (h : s.hasCaret i = true) :
    i ≤ s.lastCaret := by
  unfold hasCaret at h
  unfold lastCaret
  split at h <;> simp at h <;> omega

/-- **A caret line has its carets at the marked offsets**, and it ends in one. -/
theorem shows_carets? {spans : List Span} {width : Int} {carets : String}
    (h : carets? spans width = some carets) :
    Shows carets fun i => ∃ s ∈ spans, s.hasCaret i = true := by
  have hmarked : ∀ i : Int, (∃ s ∈ spans, s.hasCaret i = true) ↔ spans.any (·.hasCaret i) = true :=
    fun i => List.any_eq_true.symm
  simp only [hmarked]
  unfold carets? at h
  split at h
  case isFalse => simp at h
  split at h
  · next hnone =>
    -- nothing is marked
    obtain rfl : spans = [] := by simpa using hnone
    obtain rfl : "" = carets := by simpa using h
    exact ⟨by simp, by simp, by simp⟩
  · next last hlast =>
    obtain rfl := Option.some.inj h
    refine shows_cells (fun i => spans.any (·.hasCaret i)) fun i hi => ?_
    -- no caret is behind the last one
    obtain ⟨s, hs, hcaret⟩ := (hmarked i).mpr hi
    have hle : s.lastCaret ≤ last :=
      (List.max?_eq_some_iff.mp hlast).2 _ (List.mem_map_of_mem hs)
    have := le_lastCaret_of_hasCaret hcaret
    omega

/-! ## §2 Marked offsets -/

theorem mem_marks? {s : Span} {marks : List Int} (h : s.marks? = some marks) {i : Int} :
    i ∈ marks ↔ s.hasCaret i = true := by
  rw [marks?, length?] at h
  split at h
  · simp at h
  · next hle =>
    obtain rfl := Option.some.inj h
    by_cases hlt : s.start < s.stop
    · have hpos : (s.stop - s.start).toNat ≠ 0 := by omega
      simp only [if_neg hpos, Span.hasCaret, if_pos hlt, offsets, List.mem_map, List.mem_range,
        Bool.and_eq_true, decide_eq_true_eq]
      constructor
      · rintro ⟨n, hn, rfl⟩
        omega
      · intro hi
        exact ⟨(i - s.start).toNat, by omega, by omega⟩
    · have hzero : (s.stop - s.start).toNat = 0 := by omega
      simp [hzero, hasCaret, hlt]

theorem mem_allMarks? {spans : List Span} {marks : List Int} (h : allMarks? spans = some marks)
    {i : Int} : i ∈ marks ↔ ∃ s ∈ spans, s.hasCaret i = true := by
  induction spans generalizing marks with
  | nil =>
    obtain rfl : [] = marks := by simpa [allMarks?] using h
    simp
  | cons s spans ih =>
    rw [allMarks?] at h
    split at h
    · next first others hfirst hothers =>
      obtain rfl := Option.some.inj h
      simp [mem_marks? hfirst, ih hothers]
    · simp at h

end Span

/-- **The offsets of a parse error are the marked ones.** -/
theorem ParseError.mem_offsets? {e : ParseError} {offsets : List Int}
    (h : e.offsets? = some offsets) {i : Int} :
    i ∈ offsets ↔ ∃ s ∈ e.spans, s.hasCaret i = true := by
  obtain ⟨marks, hmarks, rfl⟩ := Option.map_eq_some_iff.mp h
  rw [List.mem_eraseDups, List.mem_mergeSort, Span.mem_allMarks? hmarks]

/-! ## §3 The first offset -/

theorem Diagnostic.firstSpan?_eq_none_iff {spans : List Span} :
    firstSpan? spans = none ↔ spans = [] := by
  cases spans with
  | nil => simp [firstSpan?]
  | cons s spans =>
    rw [firstSpan?]
    split
    · simp
    · split <;> simp

/-- No span starts before the first one. -/
theorem Diagnostic.mem_firstSpan? {spans : List Span} {first : Span}
    (h : firstSpan? spans = some first) : first ∈ spans ∧ ∀ s ∈ spans, first.start ≤ s.start := by
  induction spans generalizing first with
  | nil => simp [firstSpan?] at h
  | cons s spans ih =>
    rw [firstSpan?] at h
    cases hothers : firstSpan? spans with
    | none =>
      obtain rfl : s = first := by simpa [hothers] using h
      obtain rfl := firstSpan?_eq_none_iff.mp hothers
      simp
    | some t =>
      obtain ⟨ht, hle⟩ := ih hothers
      simp only [hothers] at h
      split at h
      · next hlt =>
        obtain rfl := Option.some.inj h
        refine ⟨by simp [ht], fun u hu => ?_⟩
        rcases List.mem_cons.mp hu with rfl | hu
        · exact Int.le_of_lt hlt
        · exact hle u hu
      · next hge =>
        obtain rfl := Option.some.inj h
        refine ⟨by simp, fun u hu => ?_⟩
        rcases List.mem_cons.mp hu with rfl | hu
        · exact Int.le_refl _
        · exact Int.le_trans (Int.not_lt.mp hge) (hle u hu)

/-- **The first offset is where the first span starts.** -/
theorem ParseError.min?_offsets {e : ParseError} {offsets : List Int}
    (h : e.offsets? = some offsets) {first : Span}
    (hfirst : Diagnostic.firstSpan? e.spans = some first) : offsets.min? = some first.start := by
  obtain ⟨hmem, hle⟩ := Diagnostic.mem_firstSpan? hfirst
  refine List.min?_eq_some_iff.mpr ⟨?_, ?_⟩
  · exact (mem_offsets? h).mpr ⟨first, hmem, first.hasCaret_start⟩
  · intro i hi
    obtain ⟨s, hs, hcaret⟩ := (mem_offsets? h).mp hi
    exact Int.le_trans (hle s hs) (Span.start_le_of_hasCaret hcaret)

/-! ## §4 Caret lines and offsets -/

theorem Shows.congr {carets : String} {marked marked' : Int → Prop} (h : Shows carets marked)
    (hsame : ∀ i, marked i ↔ marked' i) : Shows carets marked' :=
  ⟨fun i => (h.caret_iff i).trans (hsame i), h.cells, h.last⟩

/-- The last caret of a line is in every line that shows the same offsets. -/
theorem Shows.length_le {carets carets' : String} {marked : Int → Prop} (h : Shows carets marked)
    (h' : Shows carets' marked) : carets.toList.length ≤ carets'.toList.length := by
  by_contra hlonger
  have hne : carets.toList ≠ [] := by
    intro hnil
    simp [hnil] at hlonger
  have hlast : carets.toList[carets.toList.length - 1]? = some '^' := by
    rw [← List.getLast?_eq_getElem?, List.getLast?_eq_some_getLast hne]
    rw [h.last _ (List.getLast?_eq_some_getLast hne)]
  have hthere := (h'.caret_iff _).mpr ((h.caret_iff _).mp hlast)
  obtain ⟨hlt, -⟩ := List.getElem?_eq_some_iff.mp hthere
  omega

/-- **Only one line shows given offsets.** -/
theorem Shows.unique {carets carets' : String} {marked : Int → Prop} (h : Shows carets marked)
    (h' : Shows carets' marked) : carets = carets' := by
  have hlength : carets.toList.length = carets'.toList.length :=
    Nat.le_antisymm (h.length_le h') (h'.length_le h)
  apply String.toList_inj.mp
  apply List.ext_getElem hlength
  intro i hi hi'
  have hcaret : carets.toList[i] = '^' ↔ carets'.toList[i] = '^' := by
    have hboth := (h.caret_iff i).trans (h'.caret_iff i).symm
    simpa [hi, hi'] using hboth
  -- a cell that is no caret is a blank
  rcases h.cells _ (List.getElem_mem hi) with hc | hc
  · rw [hc, hcaret.mp hc]
  · rcases h'.cells _ (List.getElem_mem hi') with hc' | hc'
    · rw [hcaret.mpr hc', hc']
    · rw [hc, hc']

theorem ParseError.offsets?_eq_none_iff {e : ParseError} :
    e.offsets? = none ↔ ∃ s ∈ e.spans, s.stop < s.start := by
  rw [offsets?, Option.map_eq_none_iff, Span.allMarks?_eq_none_iff]

/-- **A caret line and the offsets of an error agree.** If some span ends before it starts there is
neither. Otherwise there are both, whatever the width, and whichever spans are listed first or more
than once: the line has a caret at each of the offsets, those before the line aside, a blank in
every other cell, and it ends in a caret unless it is empty. -/
theorem carets_agree (spans : List Span) (width : Int) :
    ((∃ s ∈ spans, s.stop < s.start) → Span.carets? spans width = none ∧
      ∀ e : ParseError, (∀ s, s ∈ e.spans ↔ s ∈ spans) → e.offsets? = none) ∧
    ((∀ s ∈ spans, s.start ≤ s.stop) → ∃ carets, Span.carets? spans width = some carets ∧
      (∀ e : ParseError, (∀ s, s ∈ e.spans ↔ s ∈ spans) →
        ∃ offsets, e.offsets? = some offsets ∧ Shows carets (· ∈ offsets)) ∧
      ∀ spans' width', (∀ s, s ∈ spans' ↔ s ∈ spans) →
        Span.carets? spans' width' = some carets) := by
  constructor
  · rintro ⟨s, hs, hlt⟩
    refine ⟨Span.carets?_eq_none_iff.mpr ⟨s, hs, hlt⟩, ?_⟩
    intro e he
    exact ParseError.offsets?_eq_none_iff.mpr ⟨s, (he s).mpr hs, hlt⟩
  · intro hspans
    obtain ⟨carets, hcarets⟩ := Span.exists_carets? hspans width
    have hshows := Span.shows_carets? hcarets
    refine ⟨carets, hcarets, ?_, ?_⟩
    · intro e he
      cases hoffsets : e.offsets? with
      | none =>
        obtain ⟨s, hs, hlt⟩ := ParseError.offsets?_eq_none_iff.mp hoffsets
        exact absurd (hspans s ((he s).mp hs)) (Int.not_le.mpr hlt)
      | some offsets =>
        refine ⟨offsets, rfl, hshows.congr fun i => ?_⟩
        rw [ParseError.mem_offsets? hoffsets]
        simp only [he]
    · -- the other line shows the same offsets, so it is the same line
      intro spans' width' hsame
      obtain ⟨carets', hcarets'⟩ :=
        Span.exists_carets? (fun s hs => hspans s ((hsame s).mp hs)) width'
      have hshows' := Span.shows_carets? hcarets'
      simp only [hsame] at hshows'
      rw [hcarets', hshows.unique hshows']

/-- An error about two overlapping spans, one of them named twice, an empty span, and one that
begins before the line. One of the tokens has no place. -/
def scattered : ParseError where
  category := .general
  message := "scattered"
  tokens := [⟨⟨.identifier, "ab"⟩, 2, some ⟨4, 6, 1⟩⟩, ⟨⟨.finish, "END"⟩, -1, some ⟨2, 2, 1⟩⟩,
    ⟨⟨.identifier, "bc"⟩, 3, some ⟨5, 7, 1⟩⟩, ⟨⟨.identifier, "d"⟩, -1, none⟩,
    ⟨⟨.identifier, "xyz"⟩, 0, some ⟨-2, 1, 1⟩⟩, ⟨⟨.identifier, "ab"⟩, 2, some ⟨4, 6, 1⟩⟩]

/-- Its caret line and that of the same spans in another order, over a given width. -/
theorem carets_agree_scattered :
    (∃ offsets, scattered.offsets? = some offsets ∧ Shows "^ ^ ^^^" (· ∈ offsets)) ∧
      Span.carets? [⟨-2, 1, 1⟩, ⟨5, 7, 1⟩, ⟨2, 2, 1⟩, ⟨4, 6, 1⟩] 12 = some "^ ^ ^^^" := by
  obtain ⟨carets, hcarets, hoffsets, hsame⟩ := (carets_agree scattered.spans 0).2 (by decide)
  have hline : Span.carets? scattered.spans 0 = some "^ ^ ^^^" := rfl
  obtain rfl : carets = "^ ^ ^^^" := Option.some.inj (hcarets.symm.trans hline)
  refine ⟨hoffsets scattered fun _ => Iff.rfl, ?_⟩
  apply hsame
  intro s
  have hspans : scattered.spans = [⟨4, 6, 1⟩, ⟨2, 2, 1⟩, ⟨5, 7, 1⟩, ⟨-2, 1, 1⟩, ⟨4, 6, 1⟩] := rfl
  simp only [hspans, List.mem_cons, List.not_mem_nil, or_false]
  tauto

end Fixity
