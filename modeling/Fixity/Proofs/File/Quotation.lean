import Fixity.Proofs.File.Outcome
import Fixity.Proofs.Text.Seams
import Mathlib.Data.List.DropRight

/-!
# The line that a refusal quotes

A file that cannot be read on is refused with the number of a line and with a quotation. The number
counts line feeds, but the quotation is looked up under this number among the parts of the text
between all line boundaries, such as form feeds, which may stand in a line as blanks or in a
comment. So the quotation is from the line with the number if no line before it is broken by such a
boundary, and then it goes up to the first boundary of the line. Behind a broken line it is from
one of the lines before.

## Main statements

- `Text.trim_eq_trim_append_iff`: what may be cut off at the end of a text that is trimmed
- `Text.exists_parts`: the parts of a text, line by line
- `report_quotes_line`: a line of a file of unbroken lines is quoted as it is
- `report_quotes`: what is quoted in any file
-/

namespace Fixity

namespace Text

/-! ## §1 Trimming -/

/-- Trimming takes away blanks only. -/
theorem ink_trim (cs : List Char) : ink (trim cs) = ink cs := by
  have hfront : ink (cs.dropWhile isBlank) = ink cs := by
    conv_rhs => rw [← List.takeWhile_append_dropWhile (p := isBlank) (l := cs), ink_append,
      ink_of_blank fun c hc => List.mem_takeWhile_imp hc, List.nil_append]
  have hback (ds : List Char) : ink (ds.rdropWhile isBlank) = ink ds := by
    conv_rhs => rw [← List.rdropWhile_append_rtakeWhile (p := isBlank) (l := ds), ink_append,
      ink_of_blank fun c hc => List.mem_rtakeWhile_imp hc, List.append_nil]
  exact (hback _).trans hfront

/-- Blanks at the end do not matter. -/
theorem trim_append_of_blank (u : List Char) {v : List Char} (hv : ∀ c ∈ v, isBlank c = true) :
    trim (u ++ v) = trim u := by
  have hback (ds : List Char) : (ds ++ v).rdropWhile isBlank = ds.rdropWhile isBlank := by
    rw [List.rdropWhile, List.rdropWhile, List.reverse_append,
      List.dropWhile_append_of_pos fun c hc => hv c (List.mem_reverse.mp hc)]
  show ((u ++ v).dropWhile isBlank).rdropWhile isBlank = (u.dropWhile isBlank).rdropWhile isBlank
  rw [List.dropWhile_append]
  split
  · next hu =>
    -- there are only blanks
    rw [List.isEmpty_iff.mp hu, List.dropWhile_eq_nil_iff.mpr hv]
  · exact hback _

/-- **Only blanks at the end do not matter.** -/
theorem trim_eq_trim_append_iff {u v : List Char} :
    trim u = trim (u ++ v) ↔ ∀ c ∈ v, isBlank c = true := by
  constructor
  · intro h
    have hink := congrArg ink h
    rw [ink_trim, ink_trim, ink_append, List.self_eq_append_right] at hink
    simpa [ink, List.filter_eq_nil_iff] using hink
  · intro hv
    exact (trim_append_of_blank u hv).symm

/-! ## §2 The parts of a line -/

/-- A line without the carriage return at its end, which belongs to the line feed behind it. -/
def dropReturn (line : List Char) : List Char :=
  if line.getLast? = some '\r' then line.dropLast else line

/-- The parts of a line between its line boundaries. -/
def parts (line : List Char) : List (List Char) :=
  (dropReturn line).splitOnP isLineBoundary

/-- A line that is one part. -/
def Unbroken (line : List Char) : Prop :=
  ∀ c ∈ dropReturn line, isLineBoundary c = false

/-- The part of a line before its first boundary. -/
def firstPart (line : List Char) : List Char :=
  line.takeWhile (!isLineBoundary ·)

variable {cs line rest : List Char}

/-- The first part of a list that is split. -/
theorem splitOnP_eq_cons {p : Char → Bool} :
    ∃ others, cs.splitOnP p = cs.takeWhile (!p ·) :: others := by
  induction cs with
  | nil => exact ⟨[], rfl⟩
  | cons c cs ih =>
    obtain ⟨others, hothers⟩ := ih
    rw [List.splitOnP_cons_eq_if_modifyHead, hothers]
    by_cases hc : p c = true
    · exact ⟨cs.takeWhile (!p ·) :: others, by simp [hc]⟩
    · exact ⟨others, by simp [hc]⟩

/-- Only a carriage return that is the last character is dropped. -/
theorem dropReturn_cons {c : Char} (h : ¬ (c = '\r' ∧ line = [])) :
    dropReturn (c :: line) = c :: dropReturn line := by
  cases line with
  | nil => simp_all [dropReturn]
  | cons d line =>
    simp only [dropReturn, List.getLast?_cons_cons]
    split <;> rfl

/-- A carriage return is a boundary, so the first part ends before it. -/
theorem takeWhile_dropReturn :
    (dropReturn line).takeWhile (!isLineBoundary ·) = firstPart line := by
  rw [dropReturn, firstPart]
  split
  · next hlast =>
    obtain ⟨u, rfl⟩ := List.getLast?_eq_some_iff.mp hlast
    have hreturn : isLineBoundary '\r' = true := by decide
    rw [List.dropLast_concat, List.takeWhile_append]
    split
    · next hu =>
      rw [(List.takeWhile_prefix _).eq_of_length hu]
      simp [hreturn]
    · rfl
  · rfl

/-- An unbroken line has one part, any other line at least two. -/
theorem parts_of_unbroken (h : Unbroken line) : parts line = [dropReturn line] :=
  List.splitOnP_eq_singleton h

theorem two_le_length_parts (h : ¬ Unbroken line) : 2 ≤ (parts line).length := by
  obtain ⟨c, hc, hboundary⟩ : ∃ c ∈ dropReturn line, isLineBoundary c = true := by
    simpa [Unbroken] using h
  obtain ⟨u, v, huv⟩ := List.append_of_mem hc
  have hu := List.length_pos_iff.mpr (List.splitOnP_ne_nil isLineBoundary u)
  have hv := List.length_pos_iff.mpr (List.splitOnP_ne_nil isLineBoundary v)
  rw [parts, huv, List.splitOnP_append_cons u v hboundary, List.length_append]
  omega

/-! ## §3 The parts of a text -/

theorem joinReturns_of_no_newline (h : '\n' ∉ line) : joinReturns line = line := by
  fun_induction joinReturns line with
  | case1 => rfl
  | case2 cs ih => simp at h
  | case3 c cs hne ih => rw [ih fun hmem => h (List.mem_cons_of_mem c hmem)]

/-- A line feed takes up the carriage return before it. -/
theorem joinReturns_append (h : '\n' ∉ line) (rest : List Char) :
    joinReturns (line ++ '\n' :: rest) = dropReturn line ++ '\n' :: joinReturns rest := by
  induction line with
  | nil => rfl
  | cons c line ih =>
    rw [List.mem_cons, not_or] at h
    by_cases hreturn : c = '\r' ∧ line = []
    · obtain ⟨rfl, rfl⟩ := hreturn
      rfl
    · rw [List.cons_append, joinReturns, ih h.2, dropReturn_cons hreturn, List.cons_append]
      -- the line feed is not the next character, or the first is no carriage return
      rintro others rfl hnext
      cases line with
      | nil => exact hreturn ⟨rfl, rfl⟩
      | cons d line => simp_all

/-- An empty part at the end of a text is not counted, and has nothing to quote. -/
theorem boundedLines_getD (n : Nat) : (boundedLines cs)[n]?.getD [] =
    ((joinReturns cs).splitOnP isLineBoundary)[n]?.getD [] := by
  simp only [boundedLines]
  split
  · next hlast =>
    obtain ⟨init, hinit⟩ := List.getLast?_eq_some_iff.mp hlast
    rw [hinit, List.dropLast_concat]
    rcases Nat.lt_or_ge n init.length with hlt | hge
    · rw [List.getElem?_append_left hlt]
    · rw [List.getElem?_append_right hge, List.getElem?_eq_none hge]
      cases n - init.length <;> rfl
  · rfl

/-- A line that is not the last one ends at a line feed. -/
theorem exists_rest_of_lines {next : List Char} {behind : List (List Char)}
    (h : lines cs = line :: next :: behind) :
    ∃ rest, cs = line ++ '\n' :: rest ∧ '\n' ∉ line ∧ lines rest = next :: behind := by
  obtain ⟨first, others, hlines, hcs, hfirst, -⟩ := Text.exists_lines cs
  rw [h, List.cons.injEq] at hlines
  obtain ⟨rfl, rfl⟩ := hlines
  refine ⟨next ++ behind.flatMap ('\n' :: ·), hcs, hfirst, ?_⟩
  rw [hcs, List.flatMap_cons, List.cons_append, lines_append_cons hfirst] at h
  exact (List.cons.inj h).2

/-- **The parts of a text, line by line.** Those of the lines before come first, then those of the
line. -/
theorem exists_parts {before behind : List (List Char)} (h : lines cs = before ++ line :: behind) :
    ∃ others, (joinReturns cs).splitOnP isLineBoundary =
      before.flatMap parts ++ firstPart line :: others := by
  induction before generalizing cs with
  | nil =>
    cases behind with
    | nil =>
      obtain ⟨first, others, hlines, rfl, hfirst, -⟩ := Text.exists_lines cs
      rw [h, List.nil_append, List.cons.injEq] at hlines
      obtain ⟨rfl, rfl⟩ := hlines
      rw [List.flatMap_nil, List.append_nil, joinReturns_of_no_newline hfirst]
      exact splitOnP_eq_cons
    | cons next behind =>
      obtain ⟨rest, rfl, hline, -⟩ := exists_rest_of_lines h
      rw [joinReturns_append hline, List.splitOnP_append_cons _ _ (by decide)]
      obtain ⟨others, hothers⟩ := @splitOnP_eq_cons (dropReturn line) isLineBoundary
      exact ⟨others ++ _, by rw [hothers, takeWhile_dropReturn]; rfl⟩
  | cons l before ih =>
    -- another line follows, so this one ends at a line feed
    obtain ⟨next, more, hnext⟩ : ∃ next more, before ++ line :: behind = next :: more :=
      List.exists_cons_of_ne_nil (by simp)
    rw [List.cons_append, hnext] at h
    obtain ⟨rest, rfl, hl, hrest⟩ := exists_rest_of_lines h
    obtain ⟨others, hothers⟩ := ih (hrest.trans hnext.symm)
    refine ⟨others, ?_⟩
    rw [joinReturns_append hl, List.splitOnP_append_cons _ _ (by decide), hothers,
      List.flatMap_cons, List.append_assoc]
    rfl

/-- An unbroken line is its first part, up to blanks. -/
theorem trim_firstPart_of_unbroken (h : Unbroken line) : trim (firstPart line) = trim line := by
  have hwhole : (dropReturn line).takeWhile (!isLineBoundary ·) = dropReturn line :=
    List.takeWhile_eq_self_iff.mpr fun c hc => by simp [h c hc]
  rw [← takeWhile_dropReturn, hwhole, dropReturn]
  split
  · next hlast =>
    obtain ⟨u, rfl⟩ := List.getLast?_eq_some_iff.mp hlast
    rw [List.dropLast_concat]
    exact (trim_append_of_blank u (List.forall_mem_singleton.mpr (by decide))).symm
  · rfl

/-- Unbroken lines are as many parts as lines. -/
theorem flatMap_parts_of_unbroken {before : List (List Char)} (h : ∀ l ∈ before, Unbroken l) :
    before.flatMap parts = before.map dropReturn := by
  induction before with
  | nil => rfl
  | cons l before ih =>
    obtain ⟨hl, hmore⟩ := List.forall_mem_cons.mp h
    rw [List.flatMap_cons, parts_of_unbroken hl, ih hmore, List.map_cons, List.singleton_append]

theorem length_le_flatMap_parts (before : List (List Char)) :
    before.length ≤ (before.flatMap parts).length := by
  induction before with
  | nil => exact Nat.le_refl 0
  | cons l before ih =>
    have hpos := List.length_pos_iff.mpr (List.splitOnP_ne_nil isLineBoundary (dropReturn l))
    rw [List.flatMap_cons, List.length_append, List.length_cons, parts]
    omega

/-- If one of them is broken, there are more parts than lines. -/
theorem length_lt_flatMap_parts {before : List (List Char)} (h : ∃ l ∈ before, ¬ Unbroken l) :
    before.length < (before.flatMap parts).length := by
  obtain ⟨l, hl, hbroken⟩ := h
  obtain ⟨u, v, rfl⟩ := List.append_of_mem hl
  have hu := length_le_flatMap_parts u
  have hv := length_le_flatMap_parts v
  have htwo := two_le_length_parts hbroken
  simp only [List.flatMap_append, List.flatMap_cons, List.length_append, List.length_cons]
  omega

end Text

/-! ## §4 Refusals -/

namespace Grammar

open File

variable {text source : String} {before behind : List (List Char)} {line : List Char}

/-- Behind unbroken lines the first part of the line is quoted. -/
theorem quotedLine_of_unbroken (hlines : Text.lines text.toList = before ++ line :: behind)
    (h : ∀ l ∈ before, Text.Unbroken l) :
    quotedLine text (before.length + 1) =
      String.ofList (Text.trim (Text.firstPart line)) := by
  obtain ⟨others, hothers⟩ := Text.exists_parts hlines
  rw [quotedLine, Text.boundedLines_getD, hothers, Text.flatMap_parts_of_unbroken h,
    Nat.add_sub_cancel, List.getElem?_append_right (by simp), List.length_map, Nat.sub_self]
  rfl

/-- Behind a broken line a part of the lines before is quoted. -/
theorem quotedLine_of_broken (hlines : Text.lines text.toList = before ++ line :: behind)
    (h : ∃ l ∈ before, ¬ Text.Unbroken l) :
    ∃ part, (before.flatMap Text.parts)[before.length]? = some part ∧
      quotedLine text (before.length + 1) = String.ofList (Text.trim part) := by
  obtain ⟨others, hothers⟩ := Text.exists_parts hlines
  have hlt := Text.length_lt_flatMap_parts h
  refine ⟨_, List.getElem?_eq_getElem hlt, ?_⟩
  rw [quotedLine, Text.boundedLines_getD, hothers, Nat.add_sub_cancel,
    List.getElem?_append_left hlt, List.getElem?_eq_getElem hlt, Option.getD_some]

/-- A refusal with a place is that of a line, which the file has. -/
theorem exists_of_report_line {f : GrammarFault} {k : Int}
    (h : ofFileText? text source = .error f) (hk : f.report.line = some k) :
    ∃ before line behind, Text.lines text.toList = before ++ line :: behind ∧
      k = before.length + 1 ∧ f.report.message =
        s!"problem with line <{quotedLine text (before.length + 1)}> in {source}" := by
  rcases exists_formless (Text.lines text.toList) with
    hall | ⟨before, line, behind, hlines, hbefore, hline⟩
  · -- a file that can be read is refused without a place
    obtain ⟨ds, hds⟩ := exists_declarations?_eq_ok_iff.mpr hall
    rw [ofFileText?, hds] at h
    simp [placeless_ofDeclarations? ds f h] at hk
  · obtain ⟨p, hp, hplace⟩ := exists_declarations?_eq_error hlines hbefore hline
    rw [ofFileText?, hp] at h
    obtain rfl := Except.error.inj h
    refine ⟨before, line, behind, hlines, ?_, by rw [← hplace]; rfl⟩
    rw [← Option.some.inj hk, hplace]
    rfl

/-- **A line of a file of unbroken lines is quoted as it is**, without the blanks around it. -/
theorem report_quotes_line {f : GrammarFault} {k : Int}
    (hunbroken : ∀ l ∈ Text.lines text.toList, Text.Unbroken l)
    (h : ofFileText? text source = .error f) (hk : f.report.line = some k) :
    ∃ before line behind, Text.lines text.toList = before ++ line :: behind ∧
      k = before.length + 1 ∧
      f.report.message = s!"problem with line <{String.ofList (Text.trim line)}> in {source}" := by
  obtain ⟨before, line, behind, hlines, hplace, hmessage⟩ := exists_of_report_line h hk
  rw [hlines, List.forall_mem_append, List.forall_mem_cons] at hunbroken
  obtain ⟨hbefore, hline, -⟩ := hunbroken
  rw [quotedLine_of_unbroken hlines hbefore, Text.trim_firstPart_of_unbroken hline] at hmessage
  exact ⟨before, line, behind, hlines, hplace, hmessage⟩

/-- **What is quoted in any file.** A refusal with a place has the number of a line, counted by line
feeds. If no line before it is broken, the first part of the line is quoted, and this is the whole
line if and only if nothing but blanks stands behind the first boundary. If some line before it is
broken, a part of those lines is quoted: the one that has the number among their parts. -/
theorem report_quotes {f : GrammarFault} {k : Int}
    (h : ofFileText? text source = .error f) (hk : f.report.line = some k) :
    ∃ before line behind quoted, Text.lines text.toList = before ++ line :: behind ∧
      k = before.length + 1 ∧
      f.report.message = s!"problem with line <{String.ofList quoted}> in {source}" ∧
      ((∀ l ∈ before, Text.Unbroken l) → quoted = Text.trim (Text.firstPart line) ∧
        (quoted = Text.trim line ↔
          ∀ c ∈ line.dropWhile (!Text.isLineBoundary ·), Text.isBlank c = true)) ∧
      ((∃ l ∈ before, ¬ Text.Unbroken l) →
        ∃ part, (before.flatMap Text.parts)[before.length]? = some part ∧
          quoted = Text.trim part) := by
  obtain ⟨before, line, behind, hlines, hplace, hmessage⟩ := exists_of_report_line h hk
  by_cases hunbroken : ∀ l ∈ before, Text.Unbroken l
  · rw [quotedLine_of_unbroken hlines hunbroken] at hmessage
    refine ⟨before, line, behind, _, hlines, hplace, hmessage, fun _ => ⟨rfl, ?_⟩, ?_⟩
    · rw [← Text.trim_eq_trim_append_iff (u := Text.firstPart line), Text.firstPart,
        List.takeWhile_append_dropWhile]
    · rintro ⟨l, hl, hbroken⟩
      exact absurd (hunbroken l hl) hbroken
  · obtain ⟨part, hpart, hquoted⟩ := quotedLine_of_broken hlines (by simpa using hunbroken)
    rw [hquoted] at hmessage
    exact ⟨before, line, behind, _, hlines, hplace, hmessage, fun hall => absurd hall hunbroken,
      fun _ => ⟨part, hpart, rfl⟩⟩

/-- The second line is a form feed, and the third has no form. -/
def formFeed : String :=
  "left 2*\n\x0c\nleft +\n"

theorem lines_formFeed : Text.lines formFeed.toList =
    ["left 2*".toList, ['\x0c']] ++ "left +".toList :: [[]] := by
  decide

theorem ofFileText?_formFeed : ∃ column,
    ofFileText? formFeed "<grammar>" = .error (.unreadable "" "<grammar>" 3 column) := by
  have hfirst : Says "left 2*".toList [.precedence "left" [(2, "*")]] :=
    (line?_eq_some_iff (by decide)).mp (by decide)
  have hsecond : Says ['\x0c'] [] := (line?_eq_some_iff (by decide)).mp (by decide)
  have hthird : ∀ ds, ¬ Says "left +".toList ds := by
    intro ds hform
    have hread := (line?_eq_some_iff (by decide)).mpr hform
    have hnone : line? "left +".toList = none := by decide
    rw [hnone] at hread
    contradiction
  obtain ⟨p, hp, hplace⟩ : ∃ p, declarations? .outset {} {} formFeed.toList = .error p ∧
      p.line = 3 :=
    exists_declarations?_eq_error lines_formFeed (by simpa using ⟨⟨_, hfirst⟩, _, hsecond⟩) hthird
  have hquoted : quotedLine formFeed 3 = "" := by decide
  exact ⟨p.column, by simp only [ofFileText?, hp, hplace, hquoted]⟩

/-- For the third line a part of the second one is quoted, which is empty. -/
theorem report_quotes_formFeed : ∃ quoted,
    "problem with line <> in <grammar>" =
      s!"problem with line <{String.ofList quoted}> in " ++ "<grammar>" ∧
    ∃ part, (["left 2*".toList, ['\x0c']].flatMap Text.parts)[2]? = some part ∧
      quoted = Text.trim part := by
  obtain ⟨column, hrefused⟩ := ofFileText?_formFeed
  obtain ⟨before, line, behind, quoted, hlines, hplace, hmessage, -, hbroken⟩ :=
    report_quotes hrefused rfl
  have hlength : before.length = 2 := by omega
  obtain ⟨rfl, -⟩ := List.append_inj (hlines.symm.trans lines_formFeed) hlength
  have hsecond : ¬ Text.Unbroken ['\x0c'] := fun h => absurd (h '\x0c' (by decide)) (by decide)
  exact ⟨quoted, hmessage, hbroken ⟨['\x0c'], by simp, hsecond⟩⟩

/-- So it is not always the line itself. -/
theorem misquoted_formFeed : ¬ ∀ (text source : String) (f : GrammarFault)
    (before behind : List (List Char)) (line : List Char), ofFileText? text source = .error f →
      Text.lines text.toList = before ++ line :: behind →
      f.report.line = some ((before.length : Int) + 1) →
      f.report.message = s!"problem with line <{String.ofList (Text.trim line)}> in {source}" := by
  intro h
  obtain ⟨column, hrefused⟩ := ofFileText?_formFeed
  have hquoted := h formFeed "<grammar>" _ _ _ _ hrefused lines_formFeed rfl
  have hmessage : (GrammarFault.unreadable "" "<grammar>" 3 column).report.message =
      "problem with line <> in <grammar>" := rfl
  rw [hmessage] at hquoted
  revert hquoted
  decide

end Grammar

end Fixity
