import Fixity.Grammar.File
import Mathlib.Data.List.TakeWhile

/-!
# Lexemes of a grammar file

What the terminals match at the beginning of a text. A symbol or an operation goes up to the next
blank, a keyword needs a space or a tab behind it, and line feeds are matched with the blanks
before them. Which terminals are tried depends on what is expected, so the first one that matches
is known from the first characters.

## Main statements

- `lexeme?_symbol`, `lexeme?_operation`: a word is matched as a whole
- `keyword?_append`: a keyword before a space or a tab is matched
- `lexeme?_newlines_eq_none`: blanks without a line feed are no newline
- `cut?_eq_some`: the first terminal that matches is cut out
- `declarations?_lexeme`, `declarations?_blank`: one step of reading
-/

namespace Fixity

/-! ## §1 Words -/

namespace Text

/-- Where a word ends: at the end of the text, or before a blank. -/
def EndsWord (rest : List Char) : Prop :=
  ∀ c ∈ rest.head?, isBlank c = true

theorem endsWord_cons {c : Char} (h : isBlank c = true) (rest : List Char) :
    EndsWord (c :: rest) := by
  simpa [EndsWord] using h

/-- Of a class of characters as many are taken as there are. -/
theorem takeWhile_append_stop {p : Char → Bool} {cs rest : List Char} (hcs : ∀ c ∈ cs, p c = true)
    (hrest : ∀ c ∈ rest.head?, p c = false) : (cs ++ rest).takeWhile p = cs := by
  have hstop : rest.takeWhile p = [] := by
    cases rest with
    | nil => rfl
    | cons c rest => simp [hrest c rfl]
  rw [List.takeWhile_append_of_pos hcs, hstop, List.append_nil]

theorem takeWhile_word {w rest : List Char} (hw : ∀ c ∈ w, isBlank c = false)
    (hrest : EndsWord rest) : (w ++ rest).takeWhile (!isBlank ·) = w :=
  takeWhile_append_stop (by simpa using hw) (by simpa [EndsWord] using hrest)

theorem isBlank_newline : isBlank '\n' = true := by
  decide

/-- Digits are no blanks. -/
theorem isBlank_eq_false_of_isDigit {d : Char} (h : d.isDigit = true) : isBlank d = false := by
  have hrange : 48 ≤ d.toNat ∧ d.toNat ≤ 57 := by
    simpa [Char.isDigit, UInt32.le_iff_toNat_le] using h
  simp only [isBlank, blankRanges, List.any_cons, List.any_nil, Bool.or_false, Bool.or_eq_false_iff,
    Bool.and_eq_false_iff, decide_eq_false_iff_not]
  omega

end Text

namespace Grammar.File

/-! ## §2 What the terminals match -/

/-- The characters that end a line or are skipped inside one. -/
def isGap (c : Char) : Bool :=
  isInlineBlank c || c = '\n'

theorem isBlank_of_isInlineBlank {c : Char} (h : isInlineBlank c = true) :
    Text.isBlank c = true := by
  simp only [isInlineBlank, Bool.or_eq_true, decide_eq_true_eq] at h
  rcases h with ((rfl | rfl) | rfl) | rfl <;> decide

/-- What is no blank neither ends a line nor is skipped. -/
theorem isGap_eq_false_of_isBlank {c : Char} (h : Text.isBlank c = false) : isGap c = false := by
  rw [Bool.eq_false_iff]
  intro hgap
  rw [isGap, Bool.or_eq_true, decide_eq_true_eq] at hgap
  rcases hgap with hblank | rfl
  · simp [isBlank_of_isInlineBlank hblank] at h
  · simp [Text.isBlank_newline] at h

theorem lexeme?_symbol {w rest : List Char} (hne : w ≠ []) (hw : ∀ c ∈ w, Text.isBlank c = false)
    (hrest : Text.EndsWord rest) : Terminal.symbol.lexeme? (w ++ rest) = some w := by
  simp only [Terminal.lexeme?, Text.takeWhile_word hw hrest, if_neg hne]

theorem lexeme?_operation {d : Char} {w rest : List Char} (hd : d.isDigit = true) (hne : w ≠ [])
    (hw : ∀ c ∈ w, Text.isBlank c = false) (hrest : Text.EndsWord rest) :
    Terminal.operation.lexeme? (d :: w ++ rest) = some (d :: w) := by
  have hword : ∀ c ∈ d :: w, Text.isBlank c = false := by
    simpa [Text.isBlank_eq_false_of_isDigit hd] using hw
  obtain ⟨s, w, rfl⟩ := List.exists_cons_of_ne_nil hne
  simp only [Terminal.lexeme?, Text.takeWhile_word hword hrest, hd, if_true]

/-- No symbol and no operation starts with a blank. -/
theorem lexeme?_operation_blank {c : Char} (h : Text.isBlank c = true) (rest : List Char) :
    Terminal.operation.lexeme? (c :: rest) = none := by
  simp [Terminal.lexeme?, h]

theorem lexeme?_symbol_blank {c : Char} (h : Text.isBlank c = true) (rest : List Char) :
    Terminal.symbol.lexeme? (c :: rest) = none := by
  simp [Terminal.lexeme?, h]

/-- **A keyword before a space or a tab is matched**, in any spelling that stands for it. -/
theorem keyword?_append {letter : Char → Char} {word l : List Char} {b : Char}
    (hl : l.map letter = word) (hb : b = ' ' ∨ b = '\t') (rest : List Char) :
    keyword? letter word (l ++ b :: rest) = some l := by
  have hlength : word.length = l.length := by rw [← hl, List.length_map]
  rw [keyword?, hlength, List.drop_left, List.take_left]
  simp [hl, hb]

/-- A keyword is not matched where another letter stands at its beginning. -/
theorem keyword?_eq_none {letter : Char → Char} {w c : Char} {word rest : List Char}
    (h : letter c ≠ w) : keyword? letter (w :: word) (c :: rest) = none := by
  unfold keyword?
  split
  · rw [if_neg]
    simp [h]
  · rfl

/-- What line feeds are matched with: the gap at the beginning of the text up to its last line
feed. -/
theorem lexeme?_newlines (cs : List Char) :
    Terminal.newlines.lexeme? cs =
      let upToLast := ((cs.takeWhile isGap).reverse.dropWhile (· ≠ '\n')).reverse
      if upToLast = [] then none else some upToLast := rfl

/-- The line feed at the end of a line is matched alone if the next line has no blanks in front. -/
theorem lexeme?_newlines_feed {rest : List Char} (h : ∀ c ∈ rest.head?, isGap c = false) :
    Terminal.newlines.lexeme? ('\n' :: rest) = some ['\n'] := by
  have hrun : ('\n' :: rest).takeWhile isGap = ['\n'] := by
    rw [← List.singleton_append]
    exact Text.takeWhile_append_stop (by simp [isGap]) h
  simp [lexeme?_newlines, hrun]

/-- **Blanks without a line feed are no newline.** -/
theorem lexeme?_newlines_eq_none {blanks rest : List Char}
    (hblanks : ∀ c ∈ blanks, isInlineBlank c = true) (hrest : ∀ c ∈ rest.head?, isGap c = false) :
    Terminal.newlines.lexeme? (blanks ++ rest) = none := by
  have hrun : (blanks ++ rest).takeWhile isGap = blanks := by
    apply Text.takeWhile_append_stop _ hrest
    intro c hc
    simp [isGap, hblanks c hc]
  -- the run holds no line feed to go up to
  have hnone : blanks.reverse.dropWhile (· ≠ '\n') = [] := by
    rw [List.dropWhile_eq_nil_iff]
    intro c hc
    have hblank := hblanks c (List.mem_reverse.mp hc)
    by_contra hfeed
    obtain rfl : c = '\n' := by simpa using hfeed
    simp [isInlineBlank] at hblank
  rw [lexeme?_newlines, hrun, hnone]
  rfl

/-! ## §3 Which terminal comes next -/

theorem cut?_eq_none {st : Expectation} {cs : List Char}
    (h : ∀ t ∈ st.terminals, t.lexeme? cs = none) : st.cut? cs = none := by
  rw [Expectation.cut?, List.findSome?_eq_none_iff]
  intro t ht
  rw [h t ht, Option.map_none]

/-- **The first terminal that matches is cut out**: those before it may come too, but do not
match. -/
theorem cut?_eq_some {st : Expectation} {cs l : List Char} {before behind : List Terminal}
    {t : Terminal} (hst : st.terminals = before ++ t :: behind)
    (hbefore : ∀ u ∈ before, u.lexeme? cs = none) (h : t.lexeme? cs = some l) :
    st.cut? cs = some (t, l) := by
  have hnone : (before.findSome? fun u => (u.lexeme? cs).map (u, ·)) = none := by
    rw [List.findSome?_eq_none_iff]
    intro u hu
    rw [hbefore u hu, Option.map_none]
  rw [Expectation.cut?, hst, List.findSome?_append, hnone, Option.none_or, List.findSome?_cons, h,
    Option.map_some]

/-! ## §4 One step of reading -/

/-- **A lexeme is read**, and reading goes on behind it. -/
theorem declarations?_lexeme {st : Expectation} {terminal : Terminal} {c : Char}
    {more rest : List Char}
    (h : st.cut? (c :: more ++ rest) = some (terminal, c :: more)) (here last : Position) :
    declarations? st here last (c :: more ++ rest) =
      (declarations? (st.next terminal c more).1 (more.foldl .past (here.past c)) here rest).map
        ((st.next terminal c more).2 ++ ·) := by
  rw [List.cons_append] at h ⊢
  rw [declarations?, h]
  simp only [List.drop_left]

/-- A blank in front of a lexeme is skipped. -/
theorem declarations?_blank {st : Expectation} {c : Char} {rest : List Char}
    (hblank : isInlineBlank c = true) (h : st.cut? (c :: rest) = none) (here last : Position) :
    declarations? st here last (c :: rest) = declarations? st (here.past c) last rest := by
  rw [declarations?, h]
  simp only [hblank, if_true]

end Grammar.File

end Fixity
