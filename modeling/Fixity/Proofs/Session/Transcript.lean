import Fixity.Proofs.File.RoundTrip
import Fixity.Proofs.Parse.Diagnosis
import Fixity.Session

/-!
# What a session writes

A session keeps one grammar and one reporter for all its lines. The grammar never changes, and the
reporter holds no error between two lines: what it still holds is the text of the last line that
failed, and the next one that fails puts its own text in that place. So every line is answered as if
it were the only one, and a session writes what its lines say one after the other.

## Main statements

- `inputLines_eq_iff`: which lines are read from any text
- `exists_turn`: a line is answered for itself, and leaves no error behind
- `converse_eq`: what is written for any number of lines
- `run_eq_lines`: what a whole session writes
-/

namespace Fixity

namespace Session

/-! ## §1 The lines of the input -/

/-- The characters of a line without its end, where there are any. -/
def IsLine (line : List Char) : Prop :=
  line ≠ [] ∧ '\n' ∉ line ∧ line.getLast? ≠ some '\r'

instance : DecidablePred IsLine := fun line =>
  inferInstanceAs (Decidable (line ≠ [] ∧ '\n' ∉ line ∧ line.getLast? ≠ some '\r'))

/-- The lines that are entered with a text. The end of a line is a line feed with the carriage
returns before it; the end of the text ends a line too. Behind an empty line none is entered. -/
inductive Entered : List Char → List String → Prop where
  | ended {returns : List Char} : (∀ c ∈ returns, c = '\r') → Entered returns []
  | empty {returns behind : List Char} :
      (∀ c ∈ returns, c = '\r') → Entered (returns ++ '\n' :: behind) []
  | last {line returns : List Char} : IsLine line → (∀ c ∈ returns, c = '\r') →
      Entered (line ++ returns) [String.ofList line]
  | line {line returns rest : List Char} {lines : List String} : IsLine line →
      (∀ c ∈ returns, c = '\r') → Entered rest lines →
      Entered (line ++ returns ++ '\n' :: rest) (String.ofList line :: lines)

/-- What stands before a line feed is a line, if not an empty one, and carriage returns. -/
theorem exists_line {cs : List Char} (hn : '\n' ∉ cs) : ∃ line returns, cs = line ++ returns ∧
    '\n' ∉ line ∧ line.getLast? ≠ some '\r' ∧ ∀ c ∈ returns, c = '\r' := by
  induction cs using List.reverseRecOn with
  | nil => exact ⟨[], [], rfl, hn, by simp, by simp⟩
  | append_singleton cs c ih =>
    by_cases hc : c = '\r'
    · rw [List.mem_append, not_or] at hn
      obtain ⟨line, returns, rfl, hline, hlast, hreturns⟩ := ih hn.1
      refine ⟨line, returns ++ [c], List.append_assoc _ _ _, hline, hlast, ?_⟩
      rw [List.forall_mem_append, List.forall_mem_singleton]
      exact ⟨hreturns, hc⟩
    · exact ⟨cs ++ [c], [], (List.append_nil _).symm, hn, by simpa using hc, by simp⟩

theorem newline_not_mem_end {line returns : List Char} (hn : '\n' ∉ line)
    (hreturns : ∀ c ∈ returns, c = '\r') : '\n' ∉ line ++ returns := by
  rw [List.mem_append, not_or]
  exact ⟨hn, fun h => absurd (hreturns _ h) (by decide)⟩

section

variable {line returns : List Char} (hn : '\n' ∉ line) (hlast : line.getLast? ≠ some '\r')
  (hreturns : ∀ c ∈ returns, c = '\r')

include hn hlast hreturns

/-- The end of a line is cut off, and nothing else. -/
theorem withoutEnd_append : Text.withoutEnd (line ++ returns) = line := by
  have hcut : ∀ c ∈ returns.reverse, (decide (c = '\n') || decide (c = '\r')) = true := by
    intro c hc
    simp [hreturns c (List.mem_reverse.mp hc)]
  rw [Text.withoutEnd, List.reverse_append, List.dropWhile_append_of_pos hcut]
  cases hline : line.reverse with
  | nil => simpa using hline.symm
  | cons c cs =>
    have hc : line.getLast? = some c := by rw [← List.head?_reverse, hline, List.head?_cons]
    have hfeed : c ≠ '\n' := fun h => hn (h ▸ List.mem_of_getLast? hc)
    have hreturn : c ≠ '\r' := fun h => hlast (h ▸ hc)
    rw [List.dropWhile_cons_of_neg (by simp [hfeed, hreturn]), ← hline, List.reverse_reverse]

/-- The text may end with a line. -/
theorem inputLines_last :
    inputLines (line ++ returns) = if line = [] then [] else [String.ofList line] := by
  rw [inputLines, Text.lines_eq_singleton (newline_not_mem_end hn hreturns), List.map_singleton,
    withoutEnd_append hn hlast hreturns]
  by_cases hempty : line = [] <;> simp [hempty]

/-- The first line of the text, unless it is empty, comes before the lines of the rest. -/
theorem inputLines_line (rest : List Char) : inputLines (line ++ returns ++ '\n' :: rest) =
    if line = [] then [] else String.ofList line :: inputLines rest := by
  rw [inputLines, Text.lines_append_cons (newline_not_mem_end hn hreturns), List.map_cons,
    withoutEnd_append hn hlast hreturns]
  by_cases hempty : line = [] <;> simp [hempty, inputLines]

end

/-- A text has lines, the ones that are read. -/
theorem entered_inputLines (text : List Char) : Entered text (inputLines text) := by
  obtain ⟨first, more, -, rfl, hfirst, hmore⟩ := Text.exists_lines text
  -- an empty line ends the reading, whatever the line feeds behind it
  induction more generalizing first with
  | nil =>
    obtain ⟨line, returns, rfl, hn, hlast, hreturns⟩ := exists_line hfirst
    rw [List.flatMap_nil, List.append_nil, inputLines_last hn hlast hreturns]
    split
    · next hempty =>
      rw [hempty]
      exact .ended hreturns
    · next hne => exact .last ⟨hne, hn, hlast⟩ hreturns
  | cons next more ih =>
    obtain ⟨hnext, hmore⟩ := List.forall_mem_cons.mp hmore
    obtain ⟨line, returns, rfl, hn, hlast, hreturns⟩ := exists_line hfirst
    rw [List.flatMap_cons, List.cons_append, inputLines_line hn hlast hreturns]
    split
    · next hempty =>
      rw [hempty]
      exact .empty hreturns
    · next hne => exact .line ⟨hne, hn, hlast⟩ hreturns (ih next hnext hmore)

/-- A text has no lines but the ones that are read. -/
theorem Entered.inputLines_eq {text : List Char} {lines : List String} (h : Entered text lines) :
    inputLines text = lines := by
  induction h with
  | ended hreturns => exact @inputLines_last [] _ (by simp) (by simp) hreturns
  | empty hreturns => exact @inputLines_line [] _ (by simp) (by simp) hreturns _
  | last hline hreturns =>
    obtain ⟨hne, hn, hlast⟩ := hline
    rw [inputLines_last hn hlast hreturns, if_neg hne]
  | line hline hreturns _ ih =>
    obtain ⟨hne, hn, hlast⟩ := hline
    rw [inputLines_line hn hlast hreturns, if_neg hne, ih]

/-- **The lines that are read are those that are entered.** -/
theorem inputLines_eq_iff {text : List Char} {lines : List String} :
    inputLines text = lines ↔ Entered text lines := by
  constructor
  · rintro rfl
    exact entered_inputLines text
  · exact Entered.inputLines_eq

/-! ## §2 One line -/

/-- What is printed for a line that has a tree. -/
def answer? (g : Grammar) (line : String) : Option String :=
  (g.parse line).toOption.map fun tree => tree.toText ++ "\n"

/-- What is printed among the errors for a line that has none. -/
def complaint? (g : Grammar) (color : Bool) (line : String) : Option String :=
  (g.diagnosis? color line).map (· ++ "\n")

variable {g : Grammar} {o : CommandLine.Options} {color : Bool} {r : Reporter}

theorem answer?_ok {line : String} {tree : Tree} (h : g.parse line = .ok tree) :
    answer? g line = some (tree.toText ++ "\n") := by
  rw [answer?, h]
  rfl

theorem answer?_error {line : String} {f : Failure} (h : g.parse line = .error f) :
    answer? g line = none := by
  rw [answer?, h]
  rfl

theorem complaint?_ok {line : String} {tree : Tree} (h : g.parse line = .ok tree) :
    complaint? g color line = none := by
  rw [complaint?, Grammar.diagnosis?_ok h]
  rfl

/-- A reporter without errors prints the error that it is given, over the line that comes with it,
and is without errors again. -/
theorem explain?_eq (hr : r.errors = []) (e : ParseError) (line : String) (color : Bool) :
    explain? r e line color = (e.format? line color "<input>").map fun text =>
      (text ++ "\n", (r.reportParse e line "<input>").clear) := by
  have hformat : (r.reportParse e line "<input>").format? (e.diagnostic "<input>") color =
      e.format? line color "<input>" := by
    rw [Reporter.format?, Reporter.source?, Reporter.reportParse, ParseError.diagnostic,
      Reporter.lookup_put, if_pos rfl]
    rfl
  have herrors : (r.reportParse e line "<input>").errors = [e.diagnostic "<input>"] := by
    rw [Reporter.reportParse, hr, List.nil_append]
  rw [explain?, Reporter.printed?, Reporter.formats?, herrors]
  simp only [List.mapM_cons, List.mapM_nil, hformat]
  cases e.format? line color "<input>" <;> simp

/-- **A line is answered for itself**, and leaves no error behind. -/
theorem exists_turn (few : g.classes.length < Grammar.bracketRank) (hdebug : o.debug = false)
    (hr : r.errors = []) (color : Bool) (line : String) :
    ∃ r', r'.errors = [] ∧ turn g o color r line =
      { output := (answer? g line).getD ""
        errors := if o.reportErrors then (complaint? g color line).getD "" else ""
        reporter := r' } := by
  rcases Grammar.tree_or_diagnosis few color line with
    ⟨tree, hparse, -⟩ | ⟨f, e, text, hparse, he, htext, hsome⟩
  · exact ⟨r, hr, by simp [turn, hparse, hdebug, answer?_ok hparse, complaint?_ok hparse]⟩
  · cases hreport : o.reportErrors with
    | false => exact ⟨r, hr, by simp [turn, hparse, he, hdebug, hreport, answer?_error hparse]⟩
    | true =>
      refine ⟨(r.reportParse e line "<input>").clear, rfl, ?_⟩
      simp [turn, hparse, he, hdebug, hreport, explain?_eq hr, htext, answer?_error hparse,
        complaint?, hsome]

/-! ## §3 All lines -/

/-- What is said about several things is what is said about the first one and then about the
others. -/
theorem join_filterMap_cons {α : Type} (f : α → Option String) (x : α) (xs : List α) :
    String.join ((x :: xs).filterMap f) = (f x).getD "" ++ String.join (xs.filterMap f) := by
  cases h : f x <;> simp [h]

/-- **Lines are answered one after the other**, each for itself. -/
theorem converse_eq (few : g.classes.length < Grammar.bracketRank) (hdebug : o.debug = false)
    (hr : r.errors = []) (color : Bool) (lines : List String) :
    converse g o color r lines =
      { output := String.join (lines.filterMap (answer? g)) ++ "Goodbye!\n"
        errors := if o.reportErrors then String.join (lines.filterMap (complaint? g color)) else ""
        ending := .exit 0 } := by
  induction lines generalizing r with
  | nil => simp [converse, farewell]
  | cons line lines ih =>
    obtain ⟨r', hr', hturn⟩ := exists_turn few hdebug hr color line
    simp only [converse, hturn, ih hr', Transcript.after, join_filterMap_cons, String.append_assoc]
    cases o.reportErrors <;> simp

/-- **What a session writes.** Once the grammar file is loaded, a session without a trace greets,
prints the tree of each line that has one, in their order, says goodbye and ends well. Among the
errors it prints nothing, or if it is asked to, the diagnostic of each other line, in their order.
Every line has one or the other, which depends on that line alone; and the lines are those that are
entered before the first empty one, whatever the input is and however its stream gives it out. -/
theorem run_eq_lines {s : Session} {file : String} {contents : Option ByteArray}
    (hplan : s.plan = .read o file) (hdebug : o.debug = false)
    (hcontents : s.contents file = .ok contents) (hload : Grammar.load? contents file = .ok g)
    (few : g.classes.length < Grammar.bracketRank) :
    s.run =
      { output := "Enter an expression to parse:\n" ++
          String.join ((inputLines s.received).filterMap (answer? g)) ++ "Goodbye!\n"
        errors := if o.reportErrors then
          String.join ((inputLines s.received).filterMap (complaint? g s.style.useColor)) else ""
        ending := .exit 0 } ∧
    (∀ line,
      (∃ tree, g.parse line = .ok tree ∧ answer? g line = some (tree.toText ++ "\n") ∧
        complaint? g s.style.useColor line = none) ∨
      ∃ f e text, g.parse line = .error f ∧ f.report = .parseError e ∧
        e.format? line s.style.useColor "<input>" = some text ∧ answer? g line = none ∧
        complaint? g s.style.useColor line = some (text ++ "\n")) ∧
    ∀ lines, inputLines s.received = lines ↔ Entered s.received lines := by
  refine ⟨?_, ?_, fun lines => inputLines_eq_iff⟩
  · have hready : opening o file (s.contents file) =
        .ready g "Enter an expression to parse:\n" "" := by
      simp [opening, hcontents, hload, hdebug]
    rw [run, hplan]
    simp only [hready, converse_eq few hdebug (r := {}) rfl, Transcript.after, String.empty_append,
      String.append_assoc]
  · intro line
    refine (Grammar.tree_or_diagnosis few s.style.useColor line).imp ?_ ?_
    · rintro ⟨tree, hparse, -⟩
      exact ⟨tree, hparse, answer?_ok hparse, complaint?_ok hparse⟩
    · rintro ⟨f, e, text, hparse, he, htext, hsome⟩
      exact ⟨f, e, text, hparse, he, htext, answer?_error hparse, by simp [complaint?, hsome]⟩

/-- A session over two lines, the second of which ends too early. A third one stands behind an empty
line. The stream gives out the line ends as they are, and a carriage return inside a line is a blank
of it. -/
def sums : Session where
  arguments := ["arithmetic.txt", "--report-errors"]
  directory := "/home"
  files _ := some arithmetic.fileText.toUTF8
  input := "x\r+ y\r\nx +\n\r\nz\n"
  translated := false
  style := { noColor := some "1" }

theorem plan_sums :
    sums.plan = .read ⟨some "arithmetic.txt", false, true⟩ "/home/arithmetic.txt" := by
  have hread : CommandLine.read sums.arguments =
      .session ⟨some "arithmetic.txt", false, true⟩ := by
    have hsorted : CommandLine.sortAll sums.arguments =
        [.word "arithmetic.txt", .switch .reportErrors "--report-errors" none] := by
      decide +kernel
    rw [CommandLine.read, hsorted]
    rfl
  have hfile : Path.resolve sums.directory "arithmetic.txt" = "/home/arithmetic.txt" := by
    decide +kernel
  rw [plan, hread]
  exact congrArg (Plan.read _) hfile

theorem load?_sums :
    Grammar.load? (some arithmetic.fileText.toUTF8) "/home/arithmetic.txt" = .ok arithmetic := by
  have hbytes : String.fromUTF8? arithmetic.fileText.toUTF8 = some arithmetic.fileText := by
    exact dif_pos arithmetic.fileText.isValidUTF8
  have htext : String.ofList (Text.unifyNewlines arithmetic.fileText.toList) =
      arithmetic.fileText := by
    cbv
  simp only [Grammar.load?, hbytes, htext, Grammar.ofFileText?_eq_unplaced]
  rfl

theorem exists_parse_sum : ∃ tree, arithmetic.parse "x\r+ y" = .ok tree ∧
    tree.toText = "\x7b+, x, y\x7d" := by
  have htokens : arithmetic.tokenize "x\r+ y" = .ok [⟨⟨.identifier, "x"⟩, 0, some ⟨0, 1, 1⟩⟩,
      ⟨⟨.binary, "+"⟩, 1, some ⟨2, 3, 1⟩⟩, ⟨⟨.identifier, "y"⟩, 2, some ⟨4, 5, 1⟩⟩] := by
    cbv
  refine ⟨.binary ⟨⟨.binary, "+"⟩, 1, some ⟨2, 3, 1⟩⟩ rfl
    (.leaf ⟨⟨.identifier, "x"⟩, 0, some ⟨0, 1, 1⟩⟩ rfl)
    (.leaf ⟨⟨.identifier, "y"⟩, 2, some ⟨4, 5, 1⟩⟩ rfl), ?_, ?_⟩
  · rw [Grammar.parse, htokens]
    rfl
  · rw [Tree.toText_eq_eval]
    rfl

/-- Why the line `x +` is refused. -/
def shortSum : Rejection :=
  .misplaced ⟨⟨.binary, "+"⟩, 1, some ⟨2, 3, 1⟩⟩ (Token.finish.placed (-1) (some ⟨3, 3, 1⟩))

theorem parse_shortSum : arithmetic.parse "x +" = .error (.engine (.rejected shortSum)) := by
  have htokens : arithmetic.tokenize "x +" = .ok
      [⟨⟨.identifier, "x"⟩, 0, some ⟨0, 1, 1⟩⟩, ⟨⟨.binary, "+"⟩, 1, some ⟨2, 3, 1⟩⟩] := by
    cbv
  rw [Grammar.parse, htokens]
  rfl

theorem complaint?_shortSum : complaint? arithmetic false "x +" =
    some ("error[E0100]: syntax error: token <+> followed by <END>\n" ++
      " --> <input>:1:3\n  |\n1 | x +\n  |   ^^\n  |\n  = help: expected an operand\n") := by
  rw [complaint?, Grammar.diagnosis?_error parse_shortSum rfl]
  decide +kernel

/-- The first line has a tree, the second one a diagnostic, and the third one is not read. -/
theorem run_sums : sums.run =
    { output := "Enter an expression to parse:\n\x7b+, x, y\x7d\nGoodbye!\n"
      errors := "error[E0100]: syntax error: token <+> followed by <END>\n" ++
        " --> <input>:1:3\n  |\n1 | x +\n  |   ^^\n  |\n  = help: expected an operand\n"
      ending := .exit 0 } := by
  obtain ⟨hrun, -, hinput⟩ := run_eq_lines plan_sums rfl rfl load?_sums (by decide)
  -- the first line and the empty one end in a carriage return and a line feed
  have hbehind : Entered ['\r', '\n', 'z', '\n'] [] := @Entered.empty ['\r'] ['z', '\n'] (by simp)
  have hsecond : Entered ['x', ' ', '+', '\n', '\r', '\n', 'z', '\n'] ["x +"] :=
    @Entered.line ['x', ' ', '+'] [] _ [] (by decide) (by simp) hbehind
  have hlines : inputLines sums.received = ["x\r+ y", "x +"] := by
    apply (hinput _).mpr
    exact @Entered.line ['x', '\r', '+', ' ', 'y'] ['\r'] _ ["x +"] (by decide) (by simp) hsecond
  have hcolor : sums.style.useColor = false := by decide
  rw [hrun, hlines, hcolor]
  obtain ⟨tree, hparse, htext⟩ := exists_parse_sum
  simp only [List.filterMap_cons, List.filterMap_nil, answer?_ok hparse, htext,
    complaint?_ok hparse, answer?_error parse_shortSum, complaint?_shortSum]
  decide +kernel

end Session

end Fixity
