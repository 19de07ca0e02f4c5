import Fixity.Proofs.Parse.Soundness
import Fixity.Reporter

/-!
# The texts that diagnostics are laid out over

A reporter keeps the parse errors that it was given, in their order, but of all inputs with one name
only the text that came last. So an error is laid out over the latest text under the name of its
input. This is the text it was raised for as long as the name is not used again for another one; if
it is, the excerpt shows a line of the other text, and the layout is right just in case that line is
the same.

## Main statements

- `errors_reportAll`, `source?_reportAll`: what a reporter holds after any number of errors
- `format?_eq_iff`: two layouts of a diagnostic are equal if and only if they quote the same line
- `format?_reportAll`: each error is laid out over the latest text under its name
-/

namespace Fixity

/-! ## §1 What a layout depends on -/

namespace Diagnostic

/-- Two sources have the same line where a diagnostic quotes one. A diagnostic without spans quotes
none, and one with a span that ends before it starts is not laid out. -/
def QuotesAlike (d : Diagnostic) (source other : String) : Prop :=
  ∀ first, firstSpan? d.spans = some first → (∀ s ∈ d.spans, ¬ s.stop < s.start) →
    sourceLine source first.line = sourceLine other first.line

/-- The end of one of several parts between separators has the same text before and behind it,
whatever it is. -/
theorem exists_intercalate_eq (sep : List Char) (parts more : List (List Char)) (part : List Char) :
    ∃ u v, ∀ s, sep.intercalate (parts ++ (part ++ s) :: more) = u ++ s ++ v := by
  induction parts with
  | nil =>
    cases more with
    | nil => exact ⟨part, [], by simp⟩
    | cons next more =>
      exact ⟨part, sep ++ sep.intercalate (next :: more), by simp [List.intercalate_cons_cons]⟩
  | cons first parts ih =>
    obtain ⟨u, v, hfocus⟩ := ih
    refine ⟨first ++ sep ++ u, v, fun s => ?_⟩
    have hcons : sep.intercalate (first :: (parts ++ (part ++ s) :: more)) =
        first ++ sep ++ sep.intercalate (parts ++ (part ++ s) :: more) := by
      cases parts <;> simp [List.intercalate_cons_cons]
    rw [List.cons_append, hcons, hfocus]
    simp

/-- A diagnostic that is laid out shows the line of its first span between two texts that do not
depend on the source. -/
theorem exists_format?_eq (d : Diagnostic) (color : Bool) {first : Span} {carets : String}
    (hfirst : firstSpan? d.spans = some first) (hcarets : Span.carets? d.spans 0 = some carets) :
    ∃ u v, ∀ source, ∃ text, d.format? (some source) color = some text ∧
      text.toList = u ++ (sourceLine source first.line).toList ++ v := by
  let gutter := (toString first.line).length
  let bar := Style.paint color [.bold, .blue] (spaces (gutter + 1) ++ "|")
  let arrow := Style.paint color [.bold, .blue] (spaces gutter ++ "--> ") ++
    d.inputName ++ ":" ++ first.position
  let number := Style.paint color [.bold, .blue] (toString first.line ++ " | ")
  let marks := Style.paint color [.bold, .blue] (spaces (gutter + 1) ++ "| ") ++
    Style.paint color [.bold, .red] (carets ++ ((given d.label).map (" " ++ ·)).getD "")
  obtain ⟨u, v, hfocus⟩ := exists_intercalate_eq ['\n']
    ([d.header color, arrow, bar].map (·.toList))
    ((marks :: d.annotations color gutter).map (·.toList)) number.toList
  refine ⟨u, v, fun source =>
    ⟨_, by simp only [format?, lines?, hfirst, excerpt?, hcarets]; rfl, ?_⟩⟩
  rw [String.toList_intercalate, ← hfocus]
  simp [bar, arrow, number, marks, gutter]

/-- **Two layouts of a diagnostic are equal if and only if they quote the same line.** -/
theorem format?_eq_iff (d : Diagnostic) (source other : String) (color : Bool) :
    d.format? (some source) color = d.format? (some other) color ↔
      d.QuotesAlike source other := by
  cases hfirst : firstSpan? d.spans with
  | none => simp [format?, lines?, hfirst, QuotesAlike]
  | some first =>
    cases hcarets : Span.carets? d.spans 0 with
    | none =>
      obtain ⟨s, hs, hinverted⟩ := Span.carets?_eq_none_iff.mp hcarets
      have hnone : ∀ source, d.format? (some source) color = none := by
        simp [format?, lines?, hfirst, excerpt?, hcarets]
      simp only [hnone, true_iff]
      exact fun _ _ hspans => absurd hinverted (hspans s hs)
    | some carets =>
      have hspans : ∀ s ∈ d.spans, ¬ s.stop < s.start := by
        intro s hs hinverted
        simp [Span.carets?_eq_none_iff.mpr ⟨s, hs, hinverted⟩] at hcarets
      obtain ⟨u, v, htext⟩ := exists_format?_eq d color hfirst hcarets
      obtain ⟨text, hformat, hsplit⟩ := htext source
      obtain ⟨text', hformat', hsplit'⟩ := htext other
      constructor
      · intro h first' hfirst' _
        obtain rfl : first = first' := Option.some.inj (hfirst.symm.trans hfirst')
        obtain rfl : text = text' := by simpa [hformat, hformat'] using h
        rw [hsplit] at hsplit'
        exact String.toList_inj.mp
          (List.append_cancel_left (List.append_cancel_right hsplit'))
      · intro h
        rw [hformat, hformat', Option.some.injEq, ← String.toList_inj, hsplit, hsplit',
          h first hfirst hspans]

end Diagnostic

namespace Reporter

/-! ## §2 What a reporter holds -/

/-- A parse error as it is handed to a reporter: with the text that failed to parse and the name of
the input. -/
structure Call where
  error : ParseError
  source : String
  inputName : String
deriving DecidableEq, Repr

/-- Hands over parse errors one after the other. -/
def reportAll (r : Reporter) (calls : List Call) : Reporter :=
  calls.foldl (fun r c => r.reportParse c.error c.source c.inputName) r

/-- The text that came last under a name. -/
def latest? (calls : List Call) (name : String) : Option String :=
  (calls.reverse.find? (·.inputName = name)).map (·.source)

variable {calls : List Call} {k : Nat} {c : Call}

theorem reportAll_concat (r : Reporter) (calls : List Call) (c : Call) :
    r.reportAll (calls ++ [c]) = (r.reportAll calls).reportParse c.error c.source c.inputName := by
  rw [reportAll, List.foldl_append]
  rfl

theorem latest?_concat (calls : List Call) (c : Call) (name : String) :
    latest? (calls ++ [c]) name =
      if c.inputName = name then some c.source else latest? calls name := by
  rw [latest?, List.reverse_append, List.reverse_singleton, List.singleton_append, List.find?_cons]
  by_cases h : c.inputName = name
  · simp [h]
  · simp [h, latest?]

/-- **All errors are kept, in their order.** -/
theorem errors_reportAll (r : Reporter) (calls : List Call) :
    (r.reportAll calls).errors = r.errors ++ calls.map fun c => c.error.diagnostic c.inputName := by
  induction calls using List.reverseRecOn with
  | nil => simp [reportAll]
  | append_singleton calls c ih => simp [reportAll_concat, reportParse, ih]

/-- **Of the texts under a name only the latest is kept.** -/
theorem source?_reportAll (r : Reporter) (calls : List Call) (name : String) :
    (r.reportAll calls).source? name = (latest? calls name).or (r.source? name) := by
  induction calls using List.reverseRecOn with
  | nil => rfl
  | append_singleton calls c ih =>
    rw [source?] at ih
    rw [reportAll_concat, source?, reportParse, lookup_put, latest?_concat, ih]
    by_cases h : c.inputName = name
    · rw [if_pos h, if_pos h.symm, Option.some_or]
    · rw [if_neg h, if_neg (Ne.symm h)]

/-- There is a text under the name of each error. -/
theorem exists_latest? (h : c ∈ calls) : ∃ source, latest? calls c.inputName = some source := by
  rw [← Option.isSome_iff_exists, latest?, Option.isSome_map, List.find?_isSome]
  exact ⟨c, by simpa using h, by simp⟩

/-- It is the text that an error was raised for if the name is not used again for another one. -/
theorem latest?_of_not_reused {before later : List Call}
    (hlater : ∀ c' ∈ later, c'.inputName = c.inputName → c'.source = c.source) :
    latest? (before ++ c :: later) c.inputName = some c.source := by
  induction later using List.reverseRecOn with
  | nil => simp [latest?_concat]
  | append_singleton later c' ih =>
    rw [List.forall_mem_append, List.forall_mem_singleton] at hlater
    rw [← List.cons_append, ← List.append_assoc, latest?_concat, ih hlater.1]
    by_cases h : c'.inputName = c.inputName
    · rw [if_pos h, hlater.2 h]
    · rw [if_neg h]

/-! ## §3 Layouts -/

/-- **Each error is laid out over the latest text under the name of its input.** So it is laid out
as it would be over the text that it was raised for if and only if the two texts have the same line
where it quotes one. -/
theorem format?_reportAll (h : calls[k]? = some c) (color : Bool) :
    ∃ latest, latest? calls c.inputName = some latest ∧
      (({} : Reporter).reportAll calls).errors[k]? = some (c.error.diagnostic c.inputName) ∧
      (({} : Reporter).reportAll calls).format? (c.error.diagnostic c.inputName) color =
        c.error.format? latest color c.inputName ∧
      ((({} : Reporter).reportAll calls).format? (c.error.diagnostic c.inputName) color =
          c.error.format? c.source color c.inputName ↔
        (c.error.diagnostic c.inputName).QuotesAlike latest c.source) := by
  obtain ⟨latest, hlatest⟩ := exists_latest? (List.mem_of_getElem? h)
  have hformat : (({} : Reporter).reportAll calls).format? (c.error.diagnostic c.inputName) color =
      c.error.format? latest color c.inputName := by
    rw [format?, source?_reportAll, ParseError.diagnostic, hlatest, Option.some_or]
    rfl
  refine ⟨latest, hlatest, ?_, hformat, ?_⟩
  · simp [errors_reportAll, h]
  · rw [hformat]
    exact Diagnostic.format?_eq_iff _ latest c.source color

/-- An error is laid out over the text it was raised for unless the name of its input is used again
for another one. -/
theorem format?_of_not_reused {before later : List Call}
    (hlater : ∀ c' ∈ later, c'.inputName = c.inputName → c'.source = c.source) (color : Bool) :
    (({} : Reporter).reportAll (before ++ c :: later)).format? (c.error.diagnostic c.inputName)
      color = c.error.format? c.source color c.inputName := by
  rw [format?, source?_reportAll, ParseError.diagnostic, latest?_of_not_reused hlater,
    Option.some_or]
  rfl

/-- The parse error of the line `( x`. -/
def unclosedError : ParseError :=
  (Rejection.unclosed ⟨⟨.opening, "("⟩, 0, some ⟨0, 1, 1⟩⟩ (some (.ofKind .closing ")"))).error

/-- The parse error of the line `x )`. -/
def unopenedError : ParseError :=
  (Rejection.unopened ⟨⟨.closing, ")"⟩, 1, some ⟨2, 3, 1⟩⟩).error

/-- Two lines of one input that do not parse. -/
def twoLines : List Call :=
  [⟨unclosedError, "( x", "<input>"⟩, ⟨unopenedError, "x )", "<input>"⟩]

/-- The first of two errors in one input is laid out over the second line. -/
theorem format?_twoLines :
    (({} : Reporter).reportAll twoLines).format? (unclosedError.diagnostic "<input>") false =
      unclosedError.format? "x )" false "<input>" := by
  obtain ⟨latest, hlatest, -, hformat, -⟩ := @format?_reportAll twoLines 0 _ rfl false
  obtain rfl : "x )" = latest := Option.some.inj hlatest
  exact hformat

/-- So it is not laid out over the line it was raised for. -/
theorem misquoted_twoLines :
    (arithmetic.parse "( x").mapError (·.report) = .error (.parseError unclosedError) ∧
    (arithmetic.parse "x )").mapError (·.report) = .error (.parseError unopenedError) ∧
    (({} : Reporter).reportAll twoLines).errors[0]? = some (unclosedError.diagnostic "<input>") ∧
    (({} : Reporter).reportAll twoLines).format? (unclosedError.diagnostic "<input>") false ≠
      unclosedError.format? "( x" false "<input>" := by
  have hunclosed : arithmetic.tokenize "( x" = .ok
      [⟨⟨.opening, "("⟩, 0, some ⟨0, 1, 1⟩⟩, ⟨⟨.identifier, "x"⟩, 1, some ⟨2, 3, 1⟩⟩] := by
    cbv
  have hunopened : arithmetic.tokenize "x )" = .ok
      [⟨⟨.identifier, "x"⟩, 0, some ⟨0, 1, 1⟩⟩, ⟨⟨.closing, ")"⟩, 1, some ⟨2, 3, 1⟩⟩] := by
    cbv
  refine ⟨?_, ?_, rfl, ?_⟩
  · rw [Grammar.parse, hunclosed]
    rfl
  · rw [Grammar.parse, hunopened]
    rfl
  · decide +kernel

end Reporter

end Fixity
