import Fixity.ParseError

/-!
# Reporters

A reporter collects diagnostics and remembers the text of every input by its name. A diagnostic
is laid out over the text that its input has when it is laid out.
-/

namespace Fixity

/-- Collected diagnostics and the texts of the inputs that they are about. -/
structure Reporter where
  sources : List (String × String) := []
  errors : List Diagnostic := []
deriving DecidableEq, Repr

namespace Reporter

/-! ## §1 Sources -/

/-- Adds a value under a name, or replaces the value under that name. -/
def put (name text : String) : List (String × String) → List (String × String)
  | [] => [(name, text)]
  | (n, t) :: rest => if n = name then (name, text) :: rest else (n, t) :: put name text rest

/-- The text of an input. -/
def source? (r : Reporter) (name : String) : Option String :=
  r.sources.lookup name

theorem lookup_put (name text other : String) (l : List (String × String)) :
    (put name text l).lookup other = if other = name then some text else l.lookup other := by
  induction l with
  | nil =>
    by_cases h : other = name
    · simp [put, h]
    · simp [put, List.lookup_cons, beq_eq_false_iff_ne.2 h, h]
  | cons p l ih =>
    obtain ⟨n, t⟩ := p
    simp only [put]
    split
    · next hn =>
      subst hn
      by_cases h : other = n
      · simp [h]
      · simp [List.lookup_cons, h, beq_eq_false_iff_ne.2 h]
    · next hn =>
      by_cases h : other = n
      · subst h
        simp [hn]
      · simp [List.lookup_cons, beq_eq_false_iff_ne.2 h, ih]

/-! ## §2 Collecting -/

/-- Collects a diagnostic. -/
def report (r : Reporter) (d : Diagnostic) : Reporter :=
  { r with errors := r.errors ++ [d] }

/-- Collects the diagnostic of a parse error, and remembers the text that failed to parse. -/
def reportParse (r : Reporter) (e : ParseError) (source inputName : String) : Reporter :=
  { sources := put inputName source r.sources
    errors := r.errors ++ [e.diagnostic inputName] }

/-- Forgets the diagnostics, but not the texts. -/
def clear (r : Reporter) : Reporter :=
  { r with errors := [] }

/-- The diagnostic at a position; a negative position counts from the last one backwards. -/
def error? (r : Reporter) (position : Int) : Option Diagnostic :=
  let i := if position < 0 then position + r.errors.length else position
  if i < 0 then none else r.errors[i.toNat]?

/-! ## §3 Layout -/

/-- The text of a diagnostic over the text of its input. -/
def format? (r : Reporter) (d : Diagnostic) (color : Bool) : Option String :=
  d.format? (r.source? d.inputName) color

/-- The texts of all collected diagnostics. -/
def formats? (r : Reporter) (color : Bool) : Option (List String) :=
  r.errors.mapM (r.format? · color)

/-- The last line of a report: how many diagnostics there are. -/
def verdict (count : Nat) (color : Bool) : String :=
  let plural := if count = 1 then "" else "s"
  Style.paint color [.bold, .red] "error" ++
    Style.paint color [.bold] s!": aborting due to {count} previous error{plural}"

/-- All diagnostics and their number, with an empty line between two of them. -/
def formatAll? (r : Reporter) (color : Bool) : Option String :=
  (r.formats? color).map fun parts =>
    "\n\n".intercalate (parts ++ [verdict r.errors.length color])

/-- What is printed for the collected diagnostics: each on lines of its own. -/
def printed? (r : Reporter) (color : Bool) : Option String :=
  (r.formats? color).map fun parts => String.join (parts.map (· ++ "\n"))

end Reporter

end Fixity
