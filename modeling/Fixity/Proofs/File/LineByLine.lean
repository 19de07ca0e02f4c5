import Fixity.Proofs.File.LineForm
import Fixity.Proofs.File.Reading

/-!
# Reading line by line

The reader of grammar files takes in newlines with all the empty lines before them, tries other
terminals after every lexeme, and reports a text that ends too early at its last lexeme. Its result
is nevertheless that of reading the lines one by one: the declarations of all lines, or the number
of the first line that has no form.

Inside a line each word is read as a whole, and where none can be read, reading stands still in that
line. Behind a line, the newlines up to the next line that says something are one lexeme; that they
count as many lines as there are newlines is what ties the position of the reader to the number of
the line.

## Main statements

- `byLine_rest`: the rest of a line is read word by word
- `byLine_line`: a line is read from its beginning
- `continues_lines`: the lines behind a line are read one by one
- `byLine_declarations?`: a file is read line by line
-/

namespace Fixity.Grammar.File

variable {st : Expectation} {cs rest tail : List Char} {ds : List Declaration}
  {R : Nat → Except Nat (List Declaration)}

namespace Expectation

/-- A line has begun and not ended. -/
def Inside (st : Expectation) : Prop :=
  st ≠ outset ∧ st ≠ entry

/-- A line may end here. -/
def Ends (st : Expectation) : Prop :=
  st.terminals.head? = some .newlines

theorem Ends.mayEnd (hst : st.Ends) : st.mayEnd = true := by
  cases st with
  | outset | nextOperation _ _ | lineEnd => rfl
  | entry | opening | closing _ | firstOperation _ => simp [Ends, terminals] at hst

/-- A line that has begun either may end, or awaits a word. -/
theorem Inside.ends_or (hst : st.Inside) :
    (st.Ends ∧ st.mayEnd = true) ∨ (.newlines ∉ st.terminals ∧ st.mayEnd = false) := by
  cases st with
  | outset => exact absurd rfl hst.1
  | entry => exact absurd rfl hst.2
  | opening | closing _ | firstOperation _ => exact .inr ⟨by simp [terminals], rfl⟩
  | nextOperation _ _ | lineEnd => exact .inl ⟨rfl, rfl⟩

end Expectation

/-! ## §1 Positions and blanks -/

/-- The result of reading, by the number of the line where it fails. -/
def byLine (r : Except Position (List Declaration)) : Except Nat (List Declaration) :=
  r.mapError (·.line)

theorem byLine_map (f : List Declaration → List Declaration)
    (r : Except Position (List Declaration)) : byLine (r.map f) = (byLine r).map f := by
  cases r <;> rfl

theorem line_past {p : Position} {c : Char} (hc : c ≠ '\n') : (p.past c).line = p.line := by
  rw [Position.past, if_neg hc]

theorem line_foldl_past {p : Position} (h : '\n' ∉ cs) : (cs.foldl .past p).line = p.line := by
  induction cs generalizing p with
  | nil => rfl
  | cons c cs ih =>
    rw [List.mem_cons, not_or] at h
    rw [List.foldl_cons, ih h.2, line_past (Ne.symm h.1)]

theorem isGap_eq_false {c : Char} (h : isInlineBlank c = false) (hfeed : c ≠ '\n') :
    isGap c = false := by
  simp [isGap, h, hfeed]

theorem isGap_of_isInlineBlank {c : Char} (h : isInlineBlank c = true) : isGap c = true := by
  rw [isGap, h, Bool.true_or]

theorem not_mem_of_isInlineBlank {gap : List Char} (hgap : ∀ c ∈ gap, isInlineBlank c = true) :
    '\n' ∉ gap := by
  intro hfeed
  simpa [isInlineBlank] using hgap _ hfeed

/-- A blank stands for itself in a keyword. -/
theorem keywordLetter_of_isBlank {c : Char} (h : Text.isBlank c = true) : keywordLetter c = c := by
  have hletter : ¬ (c = 'ı' || c = 'İ') = true := by
    intro hc
    rw [Bool.or_eq_true, decide_eq_true_eq, decide_eq_true_eq] at hc
    rcases hc with rfl | rfl <;> simp [Text.isBlank, Text.blankRanges] at h
  have hcase : ¬ (c.val ≥ 'A'.val ∧ c.val ≤ 'Z'.val) := by
    intro hupper
    have hrange : 65 ≤ c.toNat ∧ c.toNat ≤ 90 := by
      simpa [UInt32.le_iff_toNat_le] using hupper
    simp only [Text.isBlank, Text.blankRanges, List.any_cons, List.any_nil, Bool.or_false,
      Bool.or_eq_true, Bool.and_eq_true, decide_eq_true_eq] at h
    omega
  rw [keywordLetter, if_neg hletter]
  exact dif_neg hcase

/-- Only a newline begins with a blank. -/
theorem lexeme?_of_isBlank {t : Terminal} {c : Char} (h : Text.isBlank c = true)
    (ht : t ≠ .newlines) (rest : List Char) : t.lexeme? (c :: rest) = none := by
  have hne : ∀ d, Text.isBlank d = false → c ≠ d := by
    rintro d hd rfl
    simp [h] at hd
  cases t with
  | newlines => contradiction
  | comment => simp [Terminal.lexeme?, hne '#' (by decide)]
  | group => exact keyword?_eq_none (hne 'g' (by decide))
  | associativity =>
    have hletter : ∀ d, Text.isBlank d = false → keywordLetter c ≠ d := by
      rw [keywordLetter_of_isBlank h]
      exact hne
    have hleft : keyword? keywordLetter "left".toList (c :: rest) = none :=
      keyword?_eq_none (hletter 'l' (by decide))
    have hright : keyword? keywordLetter "right".toList (c :: rest) = none :=
      keyword?_eq_none (hletter 'r' (by decide))
    rw [Terminal.lexeme?, hleft, hright, Option.none_or]
  | symbol => exact lexeme?_symbol_blank h rest
  | operation => exact lexeme?_operation_blank h rest

/-- Reading stands still where no terminal begins, unless a blank is skipped there. -/
theorem declarations?_stuck {c : Char} (hcut : st.cut? (c :: rest) = none)
    (hc : isInlineBlank c = false) (here last : Position) :
    declarations? st here last (c :: rest) = .error here := by
  rw [declarations?, hcut]
  simp [hc]

/-- Blanks in front of what is no newline are skipped. -/
theorem declarations?_gap {gap : List Char} (hgap : ∀ c ∈ gap, isInlineBlank c = true)
    (h : .newlines ∈ st.terminals → ∀ c ∈ rest.head?, isGap c = false) (here last : Position) :
    declarations? st here last (gap ++ rest) =
      declarations? st (gap.foldl .past here) last rest := by
  induction gap generalizing here with
  | nil => rfl
  | cons b gap ih =>
    obtain ⟨hb, hmore⟩ := List.forall_mem_cons.mp hgap
    have hcut : st.cut? (b :: (gap ++ rest)) = none := by
      apply cut?_eq_none
      intro t ht
      by_cases hnewlines : t = .newlines
      · subst hnewlines
        exact lexeme?_newlines_eq_none hgap (h ht)
      · exact lexeme?_of_isBlank (isBlank_of_isInlineBlank hb) hnewlines _
    rw [List.cons_append, declarations?_blank hb hcut, ih hmore]
    rfl

theorem lexeme?_newlines_of_isGap {c : Char} (h : isGap c = false) (rest : List Char) :
    Terminal.newlines.lexeme? (c :: rest) = none :=
  @lexeme?_newlines_eq_none [] _ (by simp) (by simpa using h)

/-- A blank of another kind is no beginning of anything. -/
theorem cut?_stray {st : Expectation} {c : Char} (hblank : Text.isBlank c = true)
    (hgap : isGap c = false) : st.cut? (c :: rest) = none := by
  apply cut?_eq_none
  intro t ht
  by_cases hnewlines : t = .newlines
  · subst hnewlines
    exact lexeme?_newlines_of_isGap hgap rest
  · exact lexeme?_of_isBlank hblank hnewlines rest

/-! ## §2 Words of the reader -/

section

variable {c : Char} {more : List Char} {p : Expectation × List Declaration}
  (hw : ∀ d ∈ c :: more, Text.isBlank d = false) (hrest : Text.EndsWord rest)

include hw hrest

theorem cut?_symbol (hst : st.terminals = [.symbol]) :
    st.cut? (c :: more ++ rest) = some (.symbol, c :: more) :=
  @cut?_eq_some st _ _ [] [] _ hst (by simp) (lexeme?_symbol (by simp) hw hrest)

/-- A word that encodes an operation is read as a whole. -/
theorem cut?_operation {op : Int × String} (hst : AwaitsOperation st)
    (hop : member? (c :: more) = some op) :
    st.cut? (c :: more ++ rest) = some (.operation, c :: more) ∧
      ((c.toNat : Int) - '0'.toNat, String.ofList more) = op := by
  obtain ⟨d, symbol, hd, hne, hword, rfl⟩ := member?_eq_some_iff.mp hop
  obtain ⟨rfl, rfl⟩ := List.cons.inj hword
  obtain ⟨hc, hmore⟩ := List.forall_mem_cons.mp hw
  have hnewlines := lexeme?_newlines_of_isGap (isGap_eq_false_of_isBlank hc) (more ++ rest)
  refine ⟨?_, rfl⟩
  rw [List.cons_append, hst.cut?_eq hnewlines, ← List.cons_append,
    lexeme?_operation hd hne hmore hrest, Option.map_some]

/-- Where an operation is expected, no other word is read. -/
theorem cut?_no_operation (hst : AwaitsOperation st) (hop : member? (c :: more) = none) :
    st.cut? (c :: more ++ rest) = none := by
  have hgap := isGap_eq_false_of_isBlank (hw c (by simp))
  have hnewlines := lexeme?_newlines_of_isGap hgap (more ++ rest)
  rw [List.cons_append, hst.cut?_eq hnewlines, ← List.cons_append, Option.map_eq_none_iff]
  simp only [Terminal.lexeme?, Text.takeWhile_word hw hrest]
  cases more with
  | nil => rfl
  | cons s more => simpa [member?] using hop

/-- **A word that may come where it stands is read as a whole.** -/
theorem cut?_of_word? (h : st.word? (c :: more) = some p) :
    ∃ t, st.cut? (c :: more ++ rest) = some (t, c :: more) ∧ st.next t c more = p := by
  cases st with
  | opening | closing _ => exact ⟨.symbol, cut?_symbol hw hrest rfl, Option.some.inj h⟩
  | firstOperation a =>
    have hst : AwaitsOperation (.firstOperation a) := ⟨[], rfl, by simp⟩
    obtain ⟨op, hop, rfl⟩ := Option.map_eq_some_iff.mp h
    obtain ⟨hcut, rfl⟩ := cut?_operation hw hrest hst hop
    exact ⟨.operation, hcut, rfl⟩
  | nextOperation a ops =>
    have hst : AwaitsOperation (.nextOperation a ops) := ⟨[.newlines], rfl, by simp⟩
    obtain ⟨op, hop, rfl⟩ := Option.map_eq_some_iff.mp h
    obtain ⟨hcut, rfl⟩ := cut?_operation hw hrest hst hop
    exact ⟨.operation, hcut, rfl⟩
  | outset | entry | lineEnd => simp [Expectation.word?] at h

/-- Where a word may not come, none is read. -/
theorem cut?_of_word?_none (hst : st.Inside) (h : st.word? (c :: more) = none) :
    st.cut? (c :: more ++ rest) = none := by
  cases st with
  | outset => exact absurd rfl hst.1
  | entry => exact absurd rfl hst.2
  | opening | closing _ => simp [Expectation.word?] at h
  | firstOperation a =>
    exact cut?_no_operation hw hrest ⟨[], rfl, by simp⟩ (Option.map_eq_none_iff.mp h)
  | nextOperation a ops =>
    exact cut?_no_operation hw hrest ⟨[.newlines], rfl, by simp⟩ (Option.map_eq_none_iff.mp h)
  | lineEnd =>
    apply cut?_eq_none
    have hgap := isGap_eq_false_of_isBlank (hw c (by simp))
    simpa [Expectation.terminals] using lexeme?_newlines_of_isGap hgap _

end

theorem inside_of_word? {w : List Char} {p : Expectation × List Declaration}
    (h : st.word? w = some p) : p.1.Inside := by
  cases st with
  | opening | closing _ =>
    obtain rfl := Option.some.inj h
    exact ⟨nofun, nofun⟩
  | firstOperation _ | nextOperation _ _ =>
    obtain ⟨op, -, rfl⟩ := Option.map_eq_some_iff.mp h
    exact ⟨nofun, nofun⟩
  | outset | entry | lineEnd => simp [Expectation.word?] at h

/-- A text consists of blanks that are skipped, or they end somewhere. -/
theorem exists_first_letter (cs : List Char) :
    (∀ c ∈ cs, isInlineBlank c = true) ∨
      ∃ gap c rest, cs = gap ++ c :: rest ∧ (∀ d ∈ gap, isInlineBlank d = true) ∧
        isInlineBlank c = false := by
  induction cs with
  | nil => exact .inl (by simp)
  | cons c cs ih =>
    by_cases hc : isInlineBlank c = true
    · rcases ih with hcs | ⟨gap, d, rest, rfl, hgap, hd⟩
      · exact .inl (by simpa [hc] using hcs)
      · exact .inr ⟨c :: gap, d, rest, rfl, by simpa [hc] using hgap, hd⟩
    · exact .inr ⟨[], c, cs, rfl, by simp, by simpa using hc⟩

/-- What is no blank begins a word. -/
theorem exists_word {c : Char} (hc : Text.isBlank c = false) (cs : List Char) :
    ∃ more rest, cs = more ++ rest ∧ (∀ d ∈ c :: more, Text.isBlank d = false) ∧
      Text.EndsWord rest := by
  refine ⟨cs.takeWhile (!Text.isBlank ·), cs.dropWhile (!Text.isBlank ·), by simp, ?_, ?_⟩
  · rw [List.forall_mem_cons]
    exact ⟨hc, fun d hd => by simpa using List.mem_takeWhile_imp hd⟩
  · intro d hd
    have hstop := List.head?_dropWhile_not (!Text.isBlank ·) cs
    simpa [Option.mem_def.mp hd] using hstop

/-! ## §3 To the end of a line -/

/-- Reading goes on behind the line if it declares something, and fails in the line if not. -/
def proceed (line : Nat) (R : Except Nat (List Declaration)) :
    Option (List Declaration) → Except Nat (List Declaration)
  | none => .error line
  | some ds => R.map (ds ++ ·)

theorem proceed_map (line : Nat) (R : Except Nat (List Declaration)) (ds : List Declaration)
    (r : Option (List Declaration)) :
    (proceed line R r).map (ds ++ ·) = proceed line R (r.map (ds ++ ·)) := by
  cases r <;> cases R <;> simp [proceed, Except.map]

theorem proceed_nil (line : Nat) (R : Except Nat (List Declaration)) :
    proceed line R (some []) = R := by
  cases R <;> rfl

/-- What comes behind the line of a number is read to `R` of that number, wherever the line may
end. -/
def Continues (tail : List Char) (R : Nat → Except Nat (List Declaration)) : Prop :=
  ∀ ⦃st⦄, st.Ends → ∀ ⦃gap⦄, (∀ c ∈ gap, isGap c = true) → ∀ here last,
    byLine (declarations? st here last (gap ++ tail)) =
      (R (gap.foldl .past here).line).map (st.pending ++ ·)

/-- A line that may not end yet fails at its end. -/
theorem byLine_break (hst : .newlines ∉ st.terminals) (hend : st.mayEnd = false)
    (htail : ∀ c ∈ tail.head?, c = '\n') {here last : Position} (hlast : last.line = here.line) :
    byLine (declarations? st here last tail) = .error here.line := by
  cases tail with
  | nil =>
    rw [declarations?, hend]
    exact congrArg Except.error hlast
  | cons c tail =>
    obtain rfl : c = '\n' := htail c rfl
    have hcut : st.cut? ('\n' :: tail) = none := by
      apply cut?_eq_none
      intro t ht
      apply lexeme?_of_isBlank Text.isBlank_newline
      rintro rfl
      exact hst ht
    rw [declarations?_stuck hcut (by decide)]
    rfl

theorem byLine_gap (hst : st.Inside) {gap : List Char} (hgap : ∀ c ∈ gap, isInlineBlank c = true)
    (htail : ∀ c ∈ tail.head?, c = '\n') {here last : Position}
    (hR : Continues tail R) (hlast : last.line = here.line) :
    byLine (declarations? st here last (gap ++ tail)) =
      proceed here.line (R here.line) (st.rest? gap) := by
  have hrest : st.rest? gap = st.words? [] := by
    have hnil : InlineSpaced [] := by simp [InlineSpaced]
    rw [← List.append_nil gap, rest?_gap hgap, Expectation.rest?, if_pos hnil, Text.words_nil]
  have hline : (gap.foldl .past here).line = here.line :=
    line_foldl_past (not_mem_of_isInlineBlank hgap)
  rw [hrest, Expectation.words?]
  rcases hst.ends_or with ⟨hends, hmay⟩ | ⟨hnone, hmay⟩
  · rw [hR hends (fun c hc => isGap_of_isInlineBlank (hgap c hc)), hline, if_pos hmay]
    rfl
  · rw [declarations?_gap hgap (fun h => absurd h hnone),
      byLine_break hnone hmay htail (hlast.trans hline.symm), hline, hmay]
    rfl

theorem endsWord_append (hrest : Text.EndsWord rest) (htail : ∀ c ∈ tail.head?, c = '\n') :
    Text.EndsWord (rest ++ tail) := by
  cases rest with
  | nil =>
    intro c hc
    rw [htail c hc]
    exact Text.isBlank_newline
  | cons c rest => exact Text.endsWord_cons (hrest c rfl) _

/-- **The rest of a line is read word by word.** -/
theorem byLine_rest {st : Expectation} (hst : st.Inside) (cs : List Char) (hcs : '\n' ∉ cs)
    (htail : ∀ c ∈ tail.head?, c = '\n') {here last : Position}
    (hR : Continues tail R) (hlast : last.line = here.line) :
    byLine (declarations? st here last (cs ++ tail)) =
      proceed here.line (R here.line) (st.rest? cs) := by
  rcases exists_first_letter cs with hgap | ⟨gap, c, cs, rfl, hgap, hinline⟩
  · exact byLine_gap hst hgap htail hR hlast
  · rw [List.mem_append, not_or] at hcs
    obtain ⟨hgapfeed, hcs⟩ := hcs
    have hnogap : isGap c = false := isGap_eq_false hinline fun h => hcs (by simp [h])
    have hline : (gap.foldl .past here).line = here.line := line_foldl_past hgapfeed
    rw [rest?_gap hgap, List.append_assoc, List.cons_append,
      declarations?_gap hgap (by simpa using fun _ => hnogap), ← hline]
    by_cases hblank : Text.isBlank c = true
    · rw [declarations?_stuck (cut?_stray hblank hnogap) hinline, rest?_of_isBlank hblank hinline]
      rfl
    · rw [Bool.not_eq_true] at hblank
      obtain ⟨more, rest, rfl, hw, hrest⟩ := exists_word hblank cs
      have hends := endsWord_append hrest htail
      rw [← List.cons_append, List.mem_append, not_or] at hcs
      obtain ⟨hwordfeed, hrestfeed⟩ := hcs
      rw [← @List.cons_append _ c more rest, rest?_word (by simp) hw hrest, List.append_assoc]
      cases hword : st.word? (c :: more) with
      | none =>
        have hcut := cut?_of_word?_none hw hends hst hword
        rw [List.cons_append] at hcut
        rw [declarations?_stuck hcut hinline]
        rfl
      | some p =>
        obtain ⟨t, hcut, rfl⟩ := cut?_of_word? hw hends hword
        have hline' : (more.foldl .past ((gap.foldl .past here).past c)).line =
            (gap.foldl .past here).line := by
          rw [← List.foldl_cons, line_foldl_past hwordfeed]
        have hlength : rest.length < (gap ++ c :: (more ++ rest)).length := by simp; omega
        have ih := byLine_rest (inside_of_word? hword) rest hrestfeed htail hR hline'.symm
        rw [← List.cons_append, declarations?_lexeme hcut, byLine_map, ih, proceed_map, hline']
        rfl
termination_by cs.length

/-! ## §4 From the beginning of a line -/

/-- A keyword is matched in its line, whatever comes behind the line. -/
theorem keyword?_append_tail {letter : Char → Char} {word line : List Char}
    (hword : letter '\n' ∉ word) (htail : ∀ c ∈ tail.head?, c = '\n') :
    keyword? letter word (line ++ tail) = keyword? letter word line := by
  apply Option.ext
  intro l
  rw [keyword?_eq_some_iff, keyword?_eq_some_iff]
  constructor
  · rintro ⟨b, rest, hsplit, rfl, hb⟩
    rcases List.append_eq_append_iff.mp hsplit with ⟨more, rfl, htail'⟩ | ⟨more, rfl, hmore⟩
    · -- the keyword would go over the end of the line, or end there
      cases more with
      | nil =>
        obtain rfl : b = '\n' := htail b (by simp [htail'])
        simp at hb
      | cons c more =>
        obtain rfl : c = '\n' := htail c (by simp [htail'])
        simp at hword
    · cases more with
      | nil =>
        rw [List.nil_append] at hmore
        obtain rfl : b = '\n' := htail b (by rw [← hmore]; rfl)
        simp at hb
      | cons c more =>
        obtain ⟨rfl, -⟩ := List.cons.inj hmore
        exact ⟨b, more, rfl, rfl, hb⟩
  · rintro ⟨b, rest, rfl, hl, hb⟩
    exact ⟨b, rest ++ tail, by simp, hl, hb⟩

theorem cut?_entry_append (htail : ∀ c ∈ tail.head?, c = '\n') {line : List Char}
    (hline : '\n' ∉ line) (hne : line ≠ []) :
    Expectation.entry.cut? (line ++ tail) = Expectation.entry.cut? line := by
  have hgroup : Terminal.group.lexeme? (line ++ tail) = Terminal.group.lexeme? line :=
    keyword?_append_tail (by decide) htail
  have hassoc : Terminal.associativity.lexeme? (line ++ tail) =
      Terminal.associativity.lexeme? line := by
    rw [Terminal.lexeme?, Terminal.lexeme?, keyword?_append_tail (by decide) htail,
      keyword?_append_tail (by decide) htail]
  have hcomment : Terminal.comment.lexeme? (line ++ tail) = Terminal.comment.lexeme? line := by
    have hstays := ne_newline_of_not_mem hline
    have htake : ((line ++ tail).takeWhile (· ≠ '\n')) = line :=
      Text.takeWhile_append_stop hstays (by simpa using htail)
    have htake' : (line.takeWhile (· ≠ '\n')) = line := List.takeWhile_eq_self_iff.mpr hstays
    simp only [Terminal.lexeme?, htake, htake', List.head?_append_of_ne_nil _ hne]
  simp only [Expectation.cut?, Expectation.terminals, List.findSome?, hgroup, hassoc, hcomment]

/-- What begins a line declares nothing yet. -/
theorem inside_next {t : Terminal} (hst : AtLine st) (ht : t ∈ Expectation.entry.terminals)
    (c : Char) (more : List Char) :
    (st.next t c more).1.Inside ∧ st.next t c more = ((Expectation.entry.next t c more).1, []) := by
  simp only [Expectation.terminals, List.mem_cons, List.not_mem_nil, or_false] at ht
  rcases hst with rfl | rfl <;> rcases ht with rfl | rfl | rfl <;>
    exact ⟨⟨by simp [Expectation.next], by simp [Expectation.next]⟩, rfl⟩

/-- **A line is read from its beginning**, whatever stands behind it. -/
theorem byLine_line {c : Char} {cs : List Char} (hst : AtLine st)
    (hcs : '\n' ∉ c :: cs) (hc : isInlineBlank c = false) (htail : ∀ c ∈ tail.head?, c = '\n')
    (hR : Continues tail R) (here last : Position) :
    byLine (declarations? st here last (c :: cs ++ tail)) =
      proceed here.line (R here.line) (line? (c :: cs)) := by
  have hgap : isGap c = false := isGap_eq_false hc fun h => hcs (by simp [h])
  have hstart : (c :: cs).dropWhile isInlineBlank = c :: cs := by simp [hc]
  have hcut : st.cut? (c :: cs ++ tail) = Expectation.entry.cut? (c :: cs) := by
    rw [List.cons_append, cut?_atLine hst hgap, ← List.cons_append,
      cut?_entry_append htail hcs (by simp)]
  simp only [line?, hstart, form?]
  cases hentry : Expectation.entry.cut? (c :: cs) with
  | none =>
    rw [hentry, List.cons_append] at hcut
    rw [List.cons_append, declarations?_stuck hcut hc]
    rfl
  | some p =>
    obtain ⟨t, l⟩ := p
    rw [hentry] at hcut
    obtain ⟨ht, hl⟩ := exists_of_cut? hentry
    obtain ⟨rest, hrest⟩ := lexeme?_isPrefix hl
    obtain ⟨d, more, rfl⟩ := List.exists_cons_of_ne_nil (ne_nil_of_cut?_entry hentry)
    rw [← hrest] at hcs hcut ⊢
    obtain ⟨rfl, rfl⟩ := List.cons.inj hrest
    rw [List.mem_append, not_or] at hcs
    obtain ⟨hinside, hnext⟩ := inside_next hst ht d more
    have hline : (more.foldl .past (here.past d)).line = here.line := by
      rw [← List.foldl_cons, line_foldl_past hcs.1]
    rw [← hline]
    rw [List.append_assoc] at hcut ⊢
    rw [declarations?_lexeme hcut, byLine_map,
      byLine_rest hinside rest hcs.2 htail hR hline.symm, proceed_map]
    simp [hnext]

/-! ## §5 Several lines -/

/-- The numbers count from `line`. -/
def lines? (line : Nat) : List (List Char) → Except Nat (List Declaration)
  | [] => .ok []
  | l :: ls => proceed line (lines? (line + 1) ls) (line? l)

/-- A gap is taken in up to its last newline. -/
theorem lexeme?_newlines_gap {gap blanks : List Char} (hgap : ∀ c ∈ gap, isGap c = true)
    (hblanks : ∀ c ∈ blanks, isInlineBlank c = true) (hrest : ∀ c ∈ rest.head?, isGap c = false) :
    Terminal.newlines.lexeme? (gap ++ '\n' :: (blanks ++ rest)) = some (gap ++ ['\n']) := by
  have hall : ∀ c ∈ gap ++ '\n' :: blanks, isGap c = true := by
    rw [List.forall_mem_append, List.forall_mem_cons]
    exact ⟨hgap, by decide, fun c hc => by simp [isGap, hblanks c hc]⟩
  have hrun : (gap ++ '\n' :: (blanks ++ rest)).takeWhile isGap = gap ++ '\n' :: blanks := by
    rw [← List.cons_append, ← List.append_assoc]
    exact Text.takeWhile_append_stop hall hrest
  have hbehind : ∀ c ∈ blanks.reverse, decide (c ≠ '\n') = true :=
    ne_newline_of_not_mem (by simpa using not_mem_of_isInlineBlank hblanks)
  have hlast : (gap ++ '\n' :: blanks).reverse.dropWhile (· ≠ '\n') = '\n' :: gap.reverse := by
    rw [List.reverse_append, List.reverse_cons, List.append_assoc,
      List.dropWhile_append_of_pos hbehind]
    simp
  rw [lexeme?_newlines, hrun, hlast]
  simp

/-- Further lines begin with a newline. -/
theorem head?_flatMap_feed (lines : List (List Char)) :
    ∀ c ∈ (lines.flatMap ('\n' :: ·)).head?, c = '\n' := by
  cases lines <;> simp

/-- **The newlines behind a line begin another line.** -/
theorem exists_newlines (hst : st.Ends) {gap blanks : List Char} (hgap : ∀ c ∈ gap, isGap c = true)
    (hblanks : ∀ c ∈ blanks, isInlineBlank c = true) (hrest : ∀ c ∈ rest.head?, isGap c = false)
    (here last : Position) : ∃ here' last',
      here'.line = (gap.foldl .past here).line + 1 ∧
      declarations? st here last (gap ++ '\n' :: (blanks ++ rest)) =
        (declarations? .entry here' last' rest).map (st.pending ++ ·) := by
  obtain ⟨ts, hterminals⟩ := List.head?_eq_some_iff.mp hst
  have hcut : st.cut? (gap ++ '\n' :: (blanks ++ rest)) = some (.newlines, gap ++ ['\n']) :=
    @cut?_eq_some st _ _ [] ts _ hterminals (by simp) (lexeme?_newlines_gap hgap hblanks hrest)
  have hsplit : gap ++ '\n' :: (blanks ++ rest) = (gap ++ ['\n']) ++ (blanks ++ rest) := by simp
  have hposition : ((gap ++ ['\n']).foldl .past here).line = (gap.foldl .past here).line + 1 := by
    simp [Position.past]
  obtain ⟨c, more, hcons⟩ := List.exists_cons_of_ne_nil (l := gap ++ ['\n']) (by simp)
  rw [hsplit, hcons] at hcut
  rw [hcons, List.foldl_cons] at hposition
  refine ⟨blanks.foldl .past (more.foldl .past (here.past c)), here, ?_, ?_⟩
  · rw [line_foldl_past (not_mem_of_isInlineBlank hblanks), hposition]
  · rw [hsplit, hcons, declarations?_lexeme hcut]
    have hskip := @declarations?_gap .entry rest _ hblanks (by simp [Expectation.terminals])
    exact congrArg (Except.map _) (hskip _ _)

/-- What a text without anything in its lines says. -/
theorem declarations?_blank_text (hst : st.Ends) {gap : List Char}
    (hgap : ∀ c ∈ gap, isGap c = true) (here last : Position) :
    declarations? st here last gap = .ok st.pending := by
  by_cases hfeed : '\n' ∈ gap
  · -- the last newline begins a line of blanks
    obtain ⟨us, vs, hreverse, hlast⟩ := List.eq_append_cons_of_mem (List.mem_reverse.mpr hfeed)
    obtain rfl : gap = vs.reverse ++ '\n' :: us.reverse := by
      rw [← List.reverse_reverse gap, hreverse]
      simp
    rw [List.forall_mem_append, List.forall_mem_cons] at hgap
    obtain ⟨hbefore, -, hbehind⟩ := hgap
    have hblanks : ∀ c ∈ us.reverse, isInlineBlank c = true := by
      intro c hc
      have hne : c ≠ '\n' := by
        rintro rfl
        exact hlast (List.mem_reverse.mp hc)
      simpa [isGap, hne] using hbehind c hc
    obtain ⟨here', last', -, hread⟩ :=
      @exists_newlines st [] hst _ _ hbefore hblanks (by simp) here last
    rw [List.append_nil] at hread
    rw [hread, declarations?]
    simp [Expectation.mayEnd, Expectation.pending, Except.map]
  · have hblanks : ∀ c ∈ gap, isInlineBlank c = true := by
      intro c hc
      have hne : c ≠ '\n' := by
        rintro rfl
        exact hfeed hc
      simpa [isGap, hne] using hgap c hc
    rw [← List.append_nil gap, declarations?_gap hblanks (by simp), declarations?, hst.mayEnd]
    rfl

/-- **The lines behind a line are read one by one**, however many of them say nothing. -/
theorem continues_lines {lines : List (List Char)} (hlines : ∀ l ∈ lines, '\n' ∉ l) :
    Continues (lines.flatMap ('\n' :: ·)) fun line => lines? (line + 1) lines := by
  induction lines with
  | nil =>
    intro st hst gap hgap here last
    rw [List.flatMap_nil, List.append_nil, declarations?_blank_text hst hgap]
    simp [byLine, lines?, Except.map, Except.mapError]
  | cons line lines ih =>
    obtain ⟨hline, hmore⟩ := List.forall_mem_cons.mp hlines
    intro st hst gap hgap here last
    simp only [List.flatMap_cons, lines?]
    rcases exists_first_letter line with hblank | ⟨blanks, c, cs, rfl, hblanks, hc⟩
    · -- a line of blanks belongs to the gap
      have hgap' : ∀ c ∈ gap ++ '\n' :: line, isGap c = true := by
        rw [List.forall_mem_append, List.forall_mem_cons]
        exact ⟨hgap, by decide, fun c hc => isGap_of_isInlineBlank (hblank c hc)⟩
      have hposition : ((gap ++ '\n' :: line).foldl .past here).line =
          (gap.foldl .past here).line + 1 := by
        rw [List.foldl_append, List.foldl_cons, line_foldl_past hline]
        rfl
      rw [← List.append_assoc, ih hmore hst hgap', hposition, line?_blank hblank,
        proceed_nil]
    · rw [List.mem_append, not_or] at hline
      have hstart : isGap c = false := isGap_eq_false hc fun h => hline.2 (by simp [h])
      obtain ⟨here', last', hposition, hread⟩ := @exists_newlines st
        (c :: cs ++ lines.flatMap ('\n' :: ·)) hst _ _ hgap hblanks (by simpa using hstart) here
        last
      have hrest :=
        byLine_line (.inr rfl) hline.2 hc (head?_flatMap_feed lines) (ih hmore) here' last'
      simp only [List.append_assoc, List.cons_append] at hread hrest ⊢
      rw [hread, byLine_map, hrest, hposition, line?_gap hblanks]

/-- **A file is read line by line.** -/
theorem byLine_declarations? (cs : List Char) :
    byLine (declarations? .outset {} {} cs) = lines? 1 (Text.lines cs) := by
  obtain ⟨line, lines, hlines, rfl, hline, hmore⟩ := Text.exists_lines cs
  rw [hlines, lines?]
  rcases exists_first_letter line with hblank | ⟨blanks, c, cs, rfl, hblanks, hc⟩
  · have hgap : ∀ c ∈ line, isGap c = true := fun c hc => isGap_of_isInlineBlank (hblank c hc)
    have hposition : (line.foldl Position.past {}).line = 1 := line_foldl_past hline
    rw [@continues_lines _ hmore .outset rfl line hgap, hposition, line?_blank hblank, proceed_nil]
    exact proceed_nil 1 _
  · rw [List.mem_append, not_or] at hline
    have hstart : isGap c = false := isGap_eq_false hc fun h => hline.2 (by simp [h])
    have hposition : (blanks.foldl Position.past {}).line = 1 := line_foldl_past hline.1
    rw [List.append_assoc, declarations?_gap hblanks (by simpa using fun _ => hstart),
      byLine_line (.inl rfl) hline.2 hc (head?_flatMap_feed lines) (continues_lines hmore),
      hposition, line?_gap hblanks]

end Fixity.Grammar.File
