import Fixity.Proofs.File.Lexemes
import Mathlib.Data.List.Forall2

/-!
# The forms of a line

A line of a grammar file, the blanks in front aside, is empty, a comment, a keyword with the two
symbols of a bracket pair, or a keyword with the operations of a precedence class. The words of a
line are what stands between its blanks, and only blanks of the kind that is skipped may separate
them. What a line says is decided by the line alone: by the terminal that matches at its beginning
and then word by word.

## Main statements

- `words?_opening`, `words?_firstOperation`: which words may come behind a keyword
- `cut?_entry_eq_some`: at the beginning of a line at most one terminal matches
- `line?_eq_some_iff`: a line is read if and only if it has one of the forms
-/

namespace Fixity.Grammar.File

variable {st : Expectation} {cs rest : List Char} {ds : List Declaration}
  {ws : List (List Char)} {ops ops' : List (Int × String)}

/-! ## §1 Forms -/

/-- All blanks of a text are of the kind that is skipped inside a line. -/
def InlineSpaced (cs : List Char) : Prop :=
  ∀ c ∈ cs, Text.isBlank c = true → isInlineBlank c = true

instance (cs : List Char) : Decidable (InlineSpaced cs) :=
  List.decidableBAll _ cs

/-- The word of an operation: a digit for the arity and at least one more character. -/
def Encodes (w : List Char) (op : Int × String) : Prop :=
  ∃ d symbol, d.isDigit = true ∧ symbol ≠ [] ∧ w = d :: symbol ∧
    op = ((d.toNat : Int) - '0'.toNat, String.ofList symbol)

/-- What a line without blanks in front may be, and what it declares. -/
inductive LineForm : List Char → List Declaration → Prop where
  | empty : LineForm [] []
  | comment (text : List Char) : LineForm ('#' :: text) []
  /-- The keyword, a space or a tab, and two words. -/
  | brackets {b : Char} {rest o c : List Char} :
      b = ' ' ∨ b = '\t' → InlineSpaced rest → Text.words rest = [o, c] →
      LineForm ("group".toList ++ b :: rest)
        [.brackets (String.ofList o) (String.ofList c)]
  /-- The keyword in letters of any size, a space or a tab, and one or more operations. -/
  | precedence {name rest : List Char} {b : Char} {ops : List (Int × String)} :
      name.map keywordLetter = "left".toList ∨ name.map keywordLetter = "right".toList →
      b = ' ' ∨ b = '\t' → InlineSpaced rest →
      ops ≠ [] → List.Forall₂ Encodes (Text.words rest) ops →
      LineForm (name ++ b :: rest) [.precedence (String.ofList name) ops]

/-- What a line declares, the blanks in front aside. -/
def Says (line : List Char) (ds : List Declaration) : Prop :=
  LineForm (line.dropWhile isInlineBlank) ds

/-! ## §2 Words -/

/-- The operation that a word encodes. -/
def member? : List Char → Option (Int × String)
  | d :: s :: more =>
    if d.isDigit then some (d.toNat - '0'.toNat, String.ofList (s :: more)) else none
  | _ => none

theorem member?_eq_some_iff {w : List Char} {op : Int × String} :
    member? w = some op ↔ Encodes w op := by
  match w with
  | [] => simp [member?, Encodes]
  | [d] => simp [member?, Encodes]
  | d :: s :: more =>
    simp only [member?, Option.ite_none_right_eq_some, Option.some.injEq]
    constructor
    · rintro ⟨hd, rfl⟩
      exact ⟨d, s :: more, hd, by simp, rfl, rfl⟩
    · rintro ⟨_, _, hd, -, hw, rfl⟩
      obtain ⟨rfl, rfl⟩ := List.cons.inj hw
      exact ⟨hd, rfl⟩

namespace Expectation

/-- How a word is taken in where it stands, if it can come there. -/
def word? : Expectation → List Char → Option (Expectation × List Declaration)
  | opening, w => some (closing (String.ofList w), [])
  | closing o, w => some (lineEnd, [.brackets o (String.ofList w)])
  | firstOperation a, w => (member? w).map fun op => (nextOperation a [op], [])
  | nextOperation a ops, w => (member? w).map fun op => (nextOperation a (op :: ops), [])
  | outset, _ | entry, _ | lineEnd, _ => none

/-- What the words of a line declare, if the line may end behind them. -/
def words? (st : Expectation) : List (List Char) → Option (List Declaration)
  | [] => if st.mayEnd then some st.pending else none
  | w :: ws => (st.word? w).bind fun p => (p.1.words? ws).map (p.2 ++ ·)

/-- What the rest of a line declares. -/
def rest? (st : Expectation) (cs : List Char) : Option (List Declaration) :=
  if InlineSpaced cs then st.words? (Text.words cs) else none

theorem words?_lineEnd : lineEnd.words? ws = some ds ↔ ws = [] ∧ ds = [] := by
  cases ws with
  | nil => simp [words?, mayEnd, pending, eq_comm (b := ds)]
  | cons w ws => simp [words?, word?]

theorem words?_closing {o : String} : (closing o).words? ws = some ds ↔
    ∃ c, ws = [c] ∧ ds = [.brackets o (String.ofList c)] := by
  cases ws with
  | nil => simp [words?, mayEnd]
  | cons w ws => simp [words?, word?, words?_lineEnd, eq_comm (a := ds)]

/-- **Behind the keyword of brackets there are two words.** -/
theorem words?_opening : opening.words? ws = some ds ↔
    ∃ o c, ws = [o, c] ∧ ds = [.brackets (String.ofList o) (String.ofList c)] := by
  cases ws with
  | nil => simp [words?, mayEnd]
  | cons w ws => simp [words?, word?, words?_closing]

/-- Behind an operation there are any number of operations. -/
theorem words?_nextOperation {a : String} : (nextOperation a ops).words? ws = some ds ↔
    ∃ ops', List.Forall₂ Encodes ws ops' ∧ ds = [.precedence a (ops.reverse ++ ops')] := by
  induction ws generalizing ops with
  | nil => simp [words?, mayEnd, pending, eq_comm (b := ds)]
  | cons w ws ih =>
    simp only [words?, word?, Option.bind_map, Option.bind_eq_some_iff, member?_eq_some_iff,
      Function.comp_apply, List.nil_append, Option.map_id', ih]
    constructor
    · rintro ⟨op, hop, ops', hops', rfl⟩
      exact ⟨op :: ops', .cons hop hops', by simp⟩
    · rintro ⟨_, hops', rfl⟩
      cases hops' with
      | @cons _ op _ ops' hop hops' => exact ⟨op, hop, ops', hops', by simp⟩

/-- **Behind the keyword of a class there are one or more operations.** -/
theorem words?_firstOperation {a : String} : (firstOperation a).words? ws = some ds ↔
    ∃ ops, ops ≠ [] ∧ List.Forall₂ Encodes ws ops ∧ ds = [.precedence a ops] := by
  cases ws with
  | nil => simp [words?, mayEnd]
  | cons w ws =>
    simp only [words?, word?, Option.bind_map, Option.bind_eq_some_iff, member?_eq_some_iff,
      Function.comp_apply, List.nil_append, Option.map_id', words?_nextOperation]
    constructor
    · rintro ⟨op, hop, ops', hops', rfl⟩
      exact ⟨op :: ops', by simp, .cons hop hops', by simp⟩
    · rintro ⟨_, -, hops', rfl⟩
      cases hops' with
      | @cons _ op _ ops' hop hops' => exact ⟨op, hop, ops', hops', by simp⟩

end Expectation

theorem words_gap {gap : List Char} (hgap : ∀ c ∈ gap, isInlineBlank c = true) :
    Text.words (gap ++ rest) = Text.words rest := by
  induction gap with
  | nil => rfl
  | cons b gap ih =>
    obtain ⟨hb, hmore⟩ := List.forall_mem_cons.mp hgap
    rw [List.cons_append, Text.words_cons_blank (isBlank_of_isInlineBlank hb), ih hmore]

theorem words_word {w : List Char} (hne : w ≠ []) (hw : ∀ c ∈ w, Text.isBlank c = false)
    (hrest : Text.EndsWord rest) : Text.words (w ++ rest) = w :: Text.words rest := by
  cases rest with
  | nil => rw [List.append_nil, Text.words_eq_singleton hne hw, Text.words_nil]
  | cons b rest =>
    have hb : Text.isBlank b = true := hrest b rfl
    rw [Text.words_append_cons hb, Text.words_eq_singleton hne hw, Text.words_cons_blank hb,
      List.singleton_append]

theorem rest?_gap {gap : List Char} (hgap : ∀ c ∈ gap, isInlineBlank c = true) :
    st.rest? (gap ++ rest) = st.rest? rest := by
  have hspaced : InlineSpaced (gap ++ rest) ↔ InlineSpaced rest := by
    simp only [InlineSpaced, List.forall_mem_append]
    exact ⟨And.right, fun h => ⟨fun c hc _ => hgap c hc, h⟩⟩
  simp only [Expectation.rest?, hspaced, words_gap hgap]

theorem rest?_blank {b : Char} (hb : b = ' ' ∨ b = '\t') :
    st.rest? (b :: rest) = st.rest? rest := by
  apply @rest?_gap st rest [b]
  rcases hb with rfl | rfl <;> simp [isInlineBlank]

theorem rest?_word {w : List Char} (hne : w ≠ []) (hw : ∀ c ∈ w, Text.isBlank c = false)
    (hrest : Text.EndsWord rest) :
    st.rest? (w ++ rest) = (st.word? w).bind fun p => (p.1.rest? rest).map (p.2 ++ ·) := by
  have hspaced : InlineSpaced (w ++ rest) ↔ InlineSpaced rest := by
    simp only [InlineSpaced, List.forall_mem_append]
    exact ⟨And.right, fun h => ⟨fun c hc hb => by simp [hw c hc] at hb, h⟩⟩
  simp only [Expectation.rest?, hspaced, words_word hne hw hrest, Expectation.words?]
  split
  · rfl
  · simp

theorem rest?_of_isBlank {c : Char} (hc : Text.isBlank c = true) (h : isInlineBlank c = false) :
    st.rest? (c :: rest) = none := by
  rw [Expectation.rest?, if_neg]
  intro hspaced
  simp [hspaced c (by simp) hc] at h

theorem rest?_eq_some_iff : st.rest? rest = some ds ↔
    InlineSpaced rest ∧ st.words? (Text.words rest) = some ds := by
  rw [Expectation.rest?, Option.ite_none_right_eq_some]

/-! ## §3 Beginnings -/

/-- A keyword is what stands before a space or a tab. -/
theorem keyword?_eq_some_iff {letter : Char → Char} {word l : List Char} :
    keyword? letter word cs = some l ↔
      ∃ b rest, cs = l ++ b :: rest ∧ l.map letter = word ∧ (b = ' ' ∨ b = '\t') := by
  constructor
  · intro h
    rw [keyword?] at h
    split at h
    · next b rest hdrop =>
      split at h
      · next hword =>
        obtain rfl := Option.some.inj h
        refine ⟨b, rest, ?_, hword⟩
        rw [← hdrop, List.take_append_drop]
      · simp at h
    · simp at h
  · rintro ⟨b, rest, rfl, hl, hb⟩
    exact keyword?_append hl hb rest

theorem lexeme?_associativity_eq_some_iff {l : List Char} :
    Terminal.associativity.lexeme? cs = some l ↔ ∃ b rest, cs = l ++ b :: rest ∧
      (l.map keywordLetter = "left".toList ∨ l.map keywordLetter = "right".toList) ∧
        (b = ' ' ∨ b = '\t') := by
  constructor
  · intro h
    rw [Terminal.lexeme?, Option.or_eq_some_iff] at h
    rcases h with h | ⟨-, h⟩
    · obtain ⟨b, rest, hsplit, hword, hb⟩ := keyword?_eq_some_iff.mp h
      exact ⟨b, rest, hsplit, .inl hword, hb⟩
    · obtain ⟨b, rest, hsplit, hword, hb⟩ := keyword?_eq_some_iff.mp h
      exact ⟨b, rest, hsplit, .inr hword, hb⟩
  · rintro ⟨b, rest, rfl, hword | hword, hb⟩
    · rw [Terminal.lexeme?, keyword?_append hword hb, Option.some_or]
    · have hleft : keyword? keywordLetter "left".toList (l ++ b :: rest) = none := by
        obtain ⟨c, more, rfl⟩ : ∃ c more, l = c :: more := by
          cases l with
          | nil => simp at hword
          | cons c more => exact ⟨c, more, rfl⟩
        have hc : keywordLetter c = 'r' := (List.cons.inj hword).1
        exact keyword?_eq_none (by rw [hc]; decide)
      rw [Terminal.lexeme?, hleft, keyword?_append hword hb, Option.none_or]

theorem ne_newline_of_not_mem (h : '\n' ∉ cs) : ∀ c ∈ cs, decide (c ≠ '\n') = true := by
  intro c hc
  rw [decide_eq_true_eq]
  rintro rfl
  exact h hc

/-- A comment goes to the end of its line. -/
theorem lexeme?_comment {text : List Char} (h : '\n' ∉ text) :
    Terminal.comment.lexeme? ('#' :: text) = some ('#' :: text) := by
  have hstays : '\n' ∉ '#' :: text := by simpa using h
  rw [Terminal.lexeme?, if_pos (by simp),
    List.takeWhile_eq_self_iff.mpr (ne_newline_of_not_mem hstays)]

theorem exists_of_cut? {t : Terminal} {l : List Char} (h : st.cut? cs = some (t, l)) :
    t ∈ st.terminals ∧ t.lexeme? cs = some l := by
  obtain ⟨u, hu, hlexeme⟩ := List.exists_of_findSome?_eq_some h
  obtain ⟨l', hl', heq⟩ := Option.map_eq_some_iff.mp hlexeme
  obtain ⟨rfl, rfl⟩ := Prod.mk.inj heq
  exact ⟨hu, hl'⟩

theorem keyword?_head {letter : Char → Char} {w c : Char} {word l : List Char}
    (h : keyword? letter (w :: word) (c :: cs) = some l) : letter c = w := by
  by_contra hne
  simp [keyword?_eq_none hne] at h

/-- The first characters of what may begin a line. -/
def Begins (c : Char) : Terminal → Prop
  | .group => c = 'g'
  | .associativity => keywordLetter c = 'l' ∨ keywordLetter c = 'r'
  | .comment => c = '#'
  | .newlines | .symbol | .operation => False

theorem begins_of_lexeme? {t : Terminal} {c : Char} {l : List Char}
    (ht : t ∈ Expectation.entry.terminals) (h : t.lexeme? (c :: cs) = some l) : Begins c t := by
  simp only [Expectation.terminals, List.mem_cons, List.not_mem_nil, or_false] at ht
  rcases ht with rfl | rfl | rfl
  · exact keyword?_head h
  · rw [Terminal.lexeme?, Option.or_eq_some_iff] at h
    exact h.imp keyword?_head fun h => keyword?_head h.2
  · by_contra hne
    have hnone : Terminal.comment.lexeme? (c :: cs) = none := if_neg (by simpa [Begins] using hne)
    simp [hnone] at h

theorem Begins.unique {t u : Terminal} {c : Char} (ht : Begins c t) (hu : Begins c u) : t = u := by
  have hg : ¬ (keywordLetter 'g' = 'l' ∨ keywordLetter 'g' = 'r') := by decide
  have hhash : ¬ (keywordLetter '#' = 'l' ∨ keywordLetter '#' = 'r') := by decide
  cases t <;> cases u <;> simp only [Begins] at ht hu <;> first | rfl | (subst_vars; contradiction)

/-- At the beginning of a line at most one terminal matches. -/
theorem cut?_entry_eq_some {t : Terminal} {c : Char} {l : List Char}
    (ht : t ∈ Expectation.entry.terminals) (h : t.lexeme? (c :: cs) = some l) :
    Expectation.entry.cut? (c :: cs) = some (t, l) := by
  cases hcut : Expectation.entry.cut? (c :: cs) with
  | none =>
    rw [Expectation.cut?, List.findSome?_eq_none_iff] at hcut
    simpa [h] using hcut t ht
  | some p =>
    obtain ⟨hu, hl⟩ := exists_of_cut? hcut
    obtain rfl : t = p.1 := (begins_of_lexeme? ht h).unique (begins_of_lexeme? hu hl)
    rw [h] at hl
    rw [Option.some.inj hl]

/-- What begins a line is not empty. -/
theorem ne_nil_of_cut?_entry {t : Terminal} {l : List Char}
    (h : Expectation.entry.cut? cs = some (t, l)) : l ≠ [] := by
  obtain ⟨ht, hl⟩ := exists_of_cut? h
  rintro rfl
  simp only [Expectation.terminals, List.mem_cons, List.not_mem_nil, or_false] at ht
  rcases ht with rfl | rfl | rfl
  · obtain ⟨b, rest, -, hword, -⟩ := keyword?_eq_some_iff.mp hl
    simp at hword
  · obtain ⟨b, rest, -, hword, -⟩ := lexeme?_associativity_eq_some_iff.mp hl
    simp at hword
  · cases cs with
    | nil => simp [Terminal.lexeme?] at hl
    | cons c cs =>
      obtain rfl : c = '#' := begins_of_lexeme? (by simp [Expectation.terminals]) hl
      simp [Terminal.lexeme?] at hl

/-! ## §4 Lines -/

/-- What a line without blanks in front declares: a keyword or a comment is cut off, and the rest
is read by words. -/
def form? : List Char → Option (List Declaration)
  | [] => some []
  | c :: cs =>
    (Expectation.entry.cut? (c :: cs)).bind fun p =>
      (Expectation.entry.next p.1 c p.2.tail).1.rest? ((c :: cs).drop p.2.length)

/-- What a line declares. -/
def line? (line : List Char) : Option (List Declaration) :=
  form? (line.dropWhile isInlineBlank)

/-- Blanks in front of a line say nothing. -/
theorem line?_gap {gap : List Char} (hgap : ∀ c ∈ gap, isInlineBlank c = true)
    (line : List Char) : line? (gap ++ line) = line? line := by
  simp only [line?, List.dropWhile_append_of_pos hgap]

theorem line?_blank {line : List Char} (h : ∀ c ∈ line, isInlineBlank c = true) :
    line? line = some [] := by
  rw [← List.append_nil line, line?_gap h]
  rfl

/-- What a line declares is decided behind the terminal that matches at its beginning. -/
theorem form?_lexeme {t : Terminal} {c : Char} {more : List Char}
    (ht : t ∈ Expectation.entry.terminals) (h : t.lexeme? (c :: more ++ rest) = some (c :: more)) :
    form? (c :: more ++ rest) = (Expectation.entry.next t c more).1.rest? rest := by
  rw [List.cons_append] at h ⊢
  rw [form?, cut?_entry_eq_some ht h]
  simp

/-- What matches at the beginning of a line, and the rest of the line, make up a form. -/
theorem lineForm_of_lexeme? {t : Terminal} {c : Char} {more : List Char}
    (ht : t ∈ Expectation.entry.terminals) (h : t.lexeme? (c :: more ++ rest) = some (c :: more))
    (hline : '\n' ∉ c :: more ++ rest)
    (hrest : (Expectation.entry.next t c more).1.rest? rest = some ds) :
    LineForm (c :: more ++ rest) ds := by
  simp only [Expectation.terminals, List.mem_cons, List.not_mem_nil, or_false] at ht
  rcases ht with rfl | rfl | rfl
  · obtain ⟨b, behind, hsplit, hword, hb⟩ := keyword?_eq_some_iff.mp h
    obtain rfl := List.append_cancel_left hsplit
    rw [rest?_blank hb] at hrest
    obtain ⟨hspaced, hwords⟩ := rest?_eq_some_iff.mp hrest
    obtain ⟨o, c', hpair, rfl⟩ := Expectation.words?_opening.mp hwords
    rw [List.map_id] at hword
    rw [hword]
    exact .brackets hb hspaced hpair
  · obtain ⟨b, behind, hsplit, hword, hb⟩ := lexeme?_associativity_eq_some_iff.mp h
    obtain rfl := List.append_cancel_left hsplit
    rw [rest?_blank hb] at hrest
    obtain ⟨hspaced, hwords⟩ := rest?_eq_some_iff.mp hrest
    obtain ⟨ops, hne, hops, rfl⟩ := Expectation.words?_firstOperation.mp hwords
    exact .precedence hword hb hspaced hne hops
  · obtain rfl : c = '#' := begins_of_lexeme? (by simp [Expectation.terminals]) h
    rw [List.cons_append, List.mem_cons, not_or] at hline
    rw [List.cons_append, lexeme?_comment hline.2] at h
    obtain rfl : rest = [] := by simpa using h
    obtain ⟨-, hwords⟩ := rest?_eq_some_iff.mp hrest
    obtain ⟨-, rfl⟩ := Expectation.words?_lineEnd.mp hwords
    exact .comment _

/-- A form is read as what it declares. -/
theorem form?_of_lineForm (h : LineForm cs ds) (hline : '\n' ∉ cs) : form? cs = some ds := by
  cases h with
  | empty => rfl
  | comment text =>
    have hlexeme : Terminal.comment.lexeme? ('#' :: text ++ []) = some ('#' :: text) := by
      rw [List.append_nil]
      exact lexeme?_comment fun h => hline (List.mem_cons_of_mem _ h)
    have hread := form?_lexeme (by simp [Expectation.terminals]) hlexeme
    rw [List.append_nil] at hread
    rw [hread, rest?_eq_some_iff]
    exact ⟨by simp [InlineSpaced], Expectation.words?_lineEnd.mpr ⟨rfl, rfl⟩⟩
  | @brackets b rest o c hb hspaced hpair =>
    have hlexeme : Terminal.group.lexeme? ("group".toList ++ b :: rest) = some "group".toList := by
      rw [Terminal.lexeme?]
      exact keyword?_append (List.map_id _) hb rest
    have hread := @form?_lexeme (b :: rest) .group 'g' _ (by simp [Expectation.terminals]) hlexeme
    rw [rest?_blank hb] at hread
    refine hread.trans (rest?_eq_some_iff.mpr ⟨hspaced, ?_⟩)
    exact Expectation.words?_opening.mpr ⟨o, c, hpair, rfl⟩
  | @precedence name rest b ops hname hb hspaced hne hops =>
    obtain ⟨c, more, rfl⟩ : ∃ c more, name = c :: more := by
      cases name with
      | nil => simp at hname
      | cons c more => exact ⟨c, more, rfl⟩
    have hlexeme : Terminal.associativity.lexeme? (c :: more ++ b :: rest) = some (c :: more) :=
      lexeme?_associativity_eq_some_iff.mpr ⟨b, rest, rfl, hname, hb⟩
    rw [form?_lexeme (by simp [Expectation.terminals]) hlexeme, rest?_blank hb,
      rest?_eq_some_iff]
    exact ⟨hspaced, Expectation.words?_firstOperation.mpr ⟨ops, hne, hops, rfl⟩⟩

theorem form?_eq_some_iff (hline : '\n' ∉ cs) : form? cs = some ds ↔ LineForm cs ds := by
  refine ⟨fun h => ?_, fun h => form?_of_lineForm h hline⟩
  cases cs with
  | nil =>
    obtain rfl : [] = ds := Option.some.inj h
    exact .empty
  | cons c cs =>
    rw [form?, Option.bind_eq_some_iff] at h
    obtain ⟨⟨t, l⟩, hcut, hread⟩ := h
    obtain ⟨ht, hl⟩ := exists_of_cut? hcut
    obtain ⟨rest, hrest⟩ := lexeme?_isPrefix hl
    obtain ⟨d, more, rfl⟩ := List.exists_cons_of_ne_nil (ne_nil_of_cut?_entry hcut)
    rw [← hrest] at hl hline hread ⊢
    obtain ⟨rfl, rfl⟩ := List.cons.inj hrest
    rw [List.drop_left] at hread
    exact lineForm_of_lexeme? ht hl hline hread

/-- **A line is read if and only if it has one of the forms.** -/
theorem line?_eq_some_iff {line : List Char} (hline : '\n' ∉ line) :
    line? line = some ds ↔ Says line ds :=
  form?_eq_some_iff fun h => hline (List.dropWhile_subset _ h)

end Fixity.Grammar.File
