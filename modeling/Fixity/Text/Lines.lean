/-!
# Lines of a text

Three ways in which a text falls into lines: at line feeds alone, at the line ends of a file
read as text, and at every character that Unicode counts as a line boundary.

## Main statements

- `lines_eq_singleton`: a text without line feeds is one line
- `lines_append_cons`: a line ends at the first line feed behind it
- `exists_lines`: a text is its lines with line feeds between them
-/

namespace Fixity.Text

/-! ## §1 Line ends of files -/

/-- A text as it is read from a file: a carriage return, alone or before a line feed, is one
    line feed. -/
def unifyNewlines : List Char → List Char
  | [] => []
  | '\r' :: '\n' :: cs => '\n' :: unifyNewlines cs
  | c :: cs => (if c = '\r' then '\n' else c) :: unifyNewlines cs

/-- The parts of a text between line feeds; a last line feed is followed by an empty part. -/
def lines (cs : List Char) : List (List Char) :=
  cs.splitOnP (· = '\n')

/-- A line without the line feeds and carriage returns at its end. -/
def withoutEnd (line : List Char) : List Char :=
  (line.reverse.dropWhile fun c => c = '\n' || c = '\r').reverse

theorem lines_eq_singleton {line : List Char} (h : '\n' ∉ line) : lines line = [line] := by
  refine List.splitOnP_eq_singleton ?_
  intro c hc
  exact decide_eq_false fun heq => h (heq ▸ hc)

theorem lines_append_cons {line : List Char} (h : '\n' ∉ line) (rest : List Char) :
    lines (line ++ '\n' :: rest) = line :: lines rest := by
  rw [lines, List.splitOnP_append_cons _ _ (by simp), ← lines, ← lines, lines_eq_singleton h]
  rfl

/-- A text is its first line and the further lines with a line feed before each. -/
theorem exists_lines (cs : List Char) : ∃ line more, lines cs = line :: more ∧
    cs = line ++ more.flatMap ('\n' :: ·) ∧ '\n' ∉ line ∧ ∀ l ∈ more, '\n' ∉ l := by
  induction cs with
  | nil => exact ⟨[], [], rfl, rfl, by simp, by simp⟩
  | cons c cs ih =>
    obtain ⟨line, more, hlines, rfl, hline, hmore⟩ := ih
    rw [lines] at hlines
    rw [lines, List.splitOnP_cons_eq_if_modifyHead, hlines]
    by_cases hc : c = '\n'
    · exact ⟨[], line :: more, by simp [hc], by simp [hc], by simp,
        List.forall_mem_cons.mpr ⟨hline, hmore⟩⟩
    · exact ⟨c :: line, more, by simp [hc], rfl, by simp [hline, Ne.symm hc], hmore⟩

/-- The characters of a line are characters of the text. -/
theorem subset_of_mem_lines {cs line : List Char} (h : line ∈ lines cs) : line ⊆ cs := by
  obtain ⟨first, more, hlines, rfl, -, -⟩ := exists_lines cs
  rw [hlines] at h
  rcases List.mem_cons.mp h with rfl | h
  · exact List.subset_append_left line _
  · intro c hc
    apply List.mem_append_right
    exact List.mem_flatMap.mpr ⟨line, h, List.mem_cons_of_mem '\n' hc⟩

/-! ## §2 Line boundaries of Unicode -/

/-- The characters after which a line may end: line feed, vertical tab, form feed, carriage
    return, the three separators U+001C to U+001E, next line, line and paragraph separator. -/
def isLineBoundary (c : Char) : Bool :=
  (0x0a ≤ c.toNat && c.toNat ≤ 0x0d) || (0x1c ≤ c.toNat && c.toNat ≤ 0x1e) ||
    c.toNat = 0x85 || c.toNat = 0x2028 || c.toNat = 0x2029

/-- A carriage return before a line feed belongs to it. -/
def joinReturns : List Char → List Char
  | [] => []
  | '\r' :: '\n' :: cs => '\n' :: joinReturns cs
  | c :: cs => c :: joinReturns cs

/-- The lines that end at any line boundary; a last line without characters is none. -/
def boundedLines (cs : List Char) : List (List Char) :=
  let parts := (joinReturns cs).splitOnP isLineBoundary
  if parts.getLast? = some [] then parts.dropLast else parts

end Fixity.Text
