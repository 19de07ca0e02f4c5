import Fixity.Diagnostic.Caret
import Fixity.Diagnostic.Style
import Fixity.Text.Lines

/-!
# Diagnostics

A message with the places it is about, laid out for a terminal:

    error[E0103]: mismatched grouping symbols: <(> closed by <]>
     --> <input>:1:1
      |
    1 | ( 1 + 2 ]
      | ^       ^
      |
      = help: expected `)`

Nothing can be laid out below a line if a span ends before it starts.
-/

namespace Fixity

/-- A message with the spans that it points at. -/
structure Diagnostic where
  message : String
  spans : List Span := []
  code : Option String := none
  inputName : String := "<input>"
  help : Option String := none
  note : Option String := none
  label : Option String := none
deriving DecidableEq, Repr

namespace Diagnostic

/-! ## §1 Parts -/

/-- A text of a number of spaces. -/
def spaces (n : Nat) : String :=
  String.ofList (List.replicate n ' ')

/-- The text of an optional part; an empty text counts as none. -/
def given (s : Option String) : Option String :=
  s.filter (· ≠ "")

/-- The first line: the code, if there is one, and the message. -/
def header (d : Diagnostic) (color : Bool) : String :=
  let code := ((given d.code).map fun c => "[" ++ c ++ "]").getD ""
  Style.paint color [.bold, .red] ("error" ++ code) ++
    Style.paint color [.bold] (": " ++ d.message)

/-- One piece of advice behind the gutter. -/
def advice (color : Bool) (gutter : Nat) (title text : String) : String :=
  Style.paint color [.bold, .cyan] (spaces (gutter + 1) ++ "= ") ++
    Style.paint color [.bold] (title ++ ": ") ++ text

/-- The last lines: help and note, below an empty gutter. -/
def annotations (d : Diagnostic) (color : Bool) (gutter : Nat) : List String :=
  let lines := ((given d.help).map (advice color gutter "help")).toList ++
    ((given d.note).map (advice color gutter "note")).toList
  if lines = [] then []
  else Style.paint color [.bold, .blue] (spaces (gutter + 1) ++ "|") :: lines

/-- The span that starts first; among equals, the first one listed. -/
def firstSpan? : List Span → Option Span
  | [] => none
  | s :: ss =>
    match firstSpan? ss with
    | none => some s
    | some t => if t.start < s.start then some t else some s

/-- The line with a number, counted from one; empty if there is no such line. -/
def sourceLine (source : String) (line : Int) : String :=
  if 0 < line then
    String.ofList ((Text.lines source.toList)[(line - 1).toNat]?.getD [])
  else ""

/-- The quoted line and the carets below it. -/
def excerpt? (d : Diagnostic) (color : Bool) (gutter : Nat) (source : String) (line : Int) :
    Option (List String) :=
  (Span.carets? d.spans 0).map fun carets =>
    let label := ((given d.label).map (" " ++ ·)).getD ""
    [Style.paint color [.bold, .blue] (spaces (gutter + 1) ++ "|"),
     Style.paint color [.bold, .blue] (toString line ++ " | ") ++ sourceLine source line,
     Style.paint color [.bold, .blue] (spaces (gutter + 1) ++ "| ") ++
       Style.paint color [.bold, .red] (carets ++ label)]

/-! ## §2 The layout -/

/-- The lines of a diagnostic, with an excerpt if the source is known. -/
def lines? (d : Diagnostic) (source : Option String) (color : Bool) : Option (List String) :=
  match firstSpan? d.spans with
  | none =>
    let arrow := Style.paint color [.bold, .blue] " --> " ++ d.inputName
    some (d.header color :: arrow :: d.annotations color 1)
  | some first =>
    let gutter := (toString first.line).length
    let arrow := Style.paint color [.bold, .blue] (spaces gutter ++ "--> ") ++
      d.inputName ++ ":" ++ first.position
    let frame (middle : List String) :=
      d.header color :: arrow :: middle ++ d.annotations color gutter
    match source with
    | none => some (frame [])
    | some source => (d.excerpt? color gutter source first.line).map frame

/-- The text of a diagnostic. -/
def format? (d : Diagnostic) (source : Option String) (color : Bool) : Option String :=
  (d.lines? source color).map ("\n".intercalate ·)

end Diagnostic

end Fixity
