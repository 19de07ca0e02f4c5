/-!
# Blank characters

The characters that separate the words of a text, and what they cut out of a text: its words,
and the text without its outer blanks.

## Main statements

- `words_append_cons`: a text falls apart at every blank
- `words_eq_singleton`: a text without blanks is one word
- `mem_words`: a word is not empty and holds no blank
-/

namespace Fixity.Text

/-! ## §1 The class -/

/-- The code points of blanks: the controls from tab to carriage return and from U+001C to
    U+001F, the space, the next-line control and the space separators of Unicode with its
    line and paragraph separators. -/
def blankRanges : List (Nat × Nat) :=
  [(0x09, 0x0d), (0x1c, 0x20), (0x85, 0x85), (0xa0, 0xa0), (0x1680, 0x1680), (0x2000, 0x200a),
   (0x2028, 0x2029), (0x202f, 0x202f), (0x205f, 0x205f), (0x3000, 0x3000)]

/-- A blank separates words. The zero-width space and the byte order mark are not blanks. -/
def isBlank (c : Char) : Bool :=
  blankRanges.any fun r => r.1 ≤ c.toNat && c.toNat ≤ r.2

/-! ## §2 Words and trimming -/

/-- The maximal blank-free parts of a text, from left to right. -/
def words (cs : List Char) : List (List Char) :=
  (cs.splitOnP isBlank).filter fun w => !w.isEmpty

/-- A text without the blanks at its two ends. -/
def trim (cs : List Char) : List Char :=
  ((cs.dropWhile isBlank).reverse.dropWhile isBlank).reverse

/-! ## §3 What a word is -/

@[simp] theorem words_nil : words [] = [] := rfl

theorem words_append_cons {c : Char} (h : isBlank c = true) (u v : List Char) :
    words (u ++ c :: v) = words u ++ words v := by
  simp [words, List.splitOnP_append_cons u v h]

theorem words_eq_singleton {w : List Char} (hne : w ≠ []) (h : ∀ c ∈ w, isBlank c = false) :
    words w = [w] := by
  simp [words, List.splitOnP_eq_singleton h, hne]

theorem words_cons_blank {c : Char} (h : isBlank c = true) (v : List Char) :
    words (c :: v) = words v :=
  words_append_cons h [] v

/-- Induction along the words: a text is blank-free, or it splits at its first blank. -/
theorem exists_first_blank (cs : List Char) :
    (∀ c ∈ cs, isBlank c = false) ∨
      ∃ u c v, cs = u ++ c :: v ∧ (∀ d ∈ u, isBlank d = false) ∧ isBlank c = true := by
  induction cs with
  | nil => simp
  | cons c cs ih =>
    by_cases hc : isBlank c = true
    · exact .inr ⟨[], c, cs, rfl, by simp, hc⟩
    · rcases ih with ih | ⟨u, d, v, rfl, hu, hd⟩
      · exact .inl (by simpa [hc] using ih)
      · exact .inr ⟨c :: u, d, v, rfl, by simpa [hc] using hu, hd⟩

theorem mem_words {cs w : List Char} (h : w ∈ words cs) :
    w ≠ [] ∧ ∀ c ∈ w, isBlank c = false := by
  rcases exists_first_blank cs with hcs | ⟨u, c, v, rfl, hu, hc⟩
  · by_cases hne : cs = []
    · simp [hne] at h
    · rw [words_eq_singleton hne hcs, List.mem_singleton] at h
      exact ⟨h ▸ hne, h ▸ hcs⟩
  · rw [words_append_cons hc, List.mem_append] at h
    rcases h with h | h
    · by_cases hne : u = []
      · simp [hne] at h
      · rw [words_eq_singleton hne hu, List.mem_singleton] at h
        exact ⟨h ▸ hne, h ▸ hu⟩
    · exact mem_words h
termination_by cs.length
decreasing_by simp_all; omega

end Fixity.Text
