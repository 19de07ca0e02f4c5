import Fixity.Proofs.File.LineByLine

/-!
# What a grammar file comes to

A grammar file is refused at its first line that has no form, whatever else is wrong with it. If
all lines have one, the file comes to what its table comes to: the precedence classes in the order
of their lines, and the bracket pairs in the order of theirs. A refusal of the table has no place
in the file.

## Main statements

- `ofDeclarations?_eq`: declarations are a table of classes and pairs
- `placeless_ofDeclarations?`: no refusal of a table has a place
- `ofFileText?_eq_lines`: a file comes to what its lines say
-/

namespace Fixity

/-! ## §1 Tables -/

namespace Declaration

/-- The precedence class that is declared. -/
def class? : Declaration → Option (String × List (Int × String))
  | precedence associativity operations => some (associativity, operations)
  | brackets _ _ => none

/-- The bracket symbols that are declared. -/
def pair? : Declaration → Option (String × String)
  | precedence _ _ => none
  | brackets opening closing => some (opening, closing)

/-- The precedence class of a line. -/
def decode (c : String × List (Int × String)) : Except GrammarFault PrecedenceClass := do
  let associativity ← Associativity.ofName? c.1
  let operations ← operations? c.2
  return ⟨associativity, operations⟩

/-- Only the lines of precedence classes can be wrong by themselves. -/
theorem table?_eq (ds : List Declaration) :
    table? ds = do
      let classes ← (ds.filterMap class?).mapM decode
      return (classes, (ds.filterMap pair?).map fun p => .ofSymbols p.1 p.2) := by
  induction ds with
  | nil => rfl
  | cons d ds ih =>
    cases d with
    | precedence name members =>
      simp only [table?, ih, List.filterMap_cons, class?, pair?, List.mapM_cons, decode, bind_assoc,
        pure_bind]
    | brackets o c =>
      simp only [table?, ih, List.filterMap_cons, class?, pair?, List.map_cons, bind_assoc,
        pure_bind]

end Declaration

namespace Grammar

/-- **Declarations are a table of classes and pairs**, each in the order of their lines. -/
theorem ofDeclarations?_eq (ds : List Declaration) :
    ofDeclarations? ds = (do
      let classes ← (ds.filterMap (·.class?)).mapM Declaration.decode
      build? classes ((ds.filterMap (·.pair?)).map fun p => .ofSymbols p.1 p.2)) := by
  simp only [ofDeclarations?, Declaration.table?_eq, bind_assoc, pure_bind]

end Grammar

/-! ## §2 Refusals of tables -/

/-- If it fails, then for a reason that has no place in a file. -/
def Placeless {α : Type} (r : Except GrammarFault α) : Prop :=
  ∀ f, r = .error f → f.report.line = none

section

variable {α β : Type} {r : Except GrammarFault α}

theorem placeless_ok (a : α) : Placeless (.ok a : Except GrammarFault α) := by
  intro f h
  simp at h

theorem placeless_error {f : GrammarFault} (h : f.report.line = none) :
    Placeless (.error f : Except GrammarFault α) := by
  rintro _ ⟨⟩
  exact h

theorem Placeless.bind {k : α → Except GrammarFault β} (h : Placeless r)
    (hk : ∀ a, Placeless (k a)) : Placeless (r >>= k) := by
  cases r with
  | error f => exact placeless_error (h f rfl)
  | ok a => exact hk a

theorem placeless_mapM {k : α → Except GrammarFault β} (hk : ∀ a, Placeless (k a)) (l : List α) :
    Placeless (l.mapM k) := by
  induction l with
  | nil => exact placeless_ok []
  | cons a l ih =>
    rw [List.mapM_cons]
    exact (hk a).bind fun _ => ih.bind fun _ => placeless_ok _

end

theorem placeless_ofName? (name : String) : Placeless (Associativity.ofName? name) := by
  unfold Associativity.ofName?
  dsimp only
  split_ifs
  · exact placeless_ok _
  · exact placeless_ok _
  · exact placeless_error rfl

theorem placeless_operation? (arity : Int) (symbol encoding : String) :
    Placeless (Token.operation? arity symbol encoding) := by
  unfold Token.operation?
  split_ifs
  · exact placeless_ok _
  · exact placeless_ok _
  · exact placeless_error rfl

theorem placeless_operations? (members : List (Int × String)) :
    Placeless (Declaration.operations? members) := by
  induction members with
  | nil => exact placeless_ok _
  | cons m members ih =>
    exact (placeless_operation? _ _ _).bind fun _ => ih.bind fun _ => placeless_ok _

theorem placeless_decode (c : String × List (Int × String)) : Placeless (Declaration.decode c) :=
  (placeless_ofName? _).bind fun _ => (placeless_operations? _).bind fun _ => placeless_ok _

theorem placeless_enrol (before : List Token) (t : Token) : Placeless (enrol before t) := by
  unfold enrol
  split
  · split
    · exact placeless_error rfl
    · exact placeless_ok _
  · exact placeless_error rfl

theorem placeless_enrolOperations (before ts : List Token) :
    Placeless (enrolOperations before ts) := by
  induction ts generalizing before with
  | nil => exact placeless_ok _
  | cons t ts ih =>
    rw [enrolOperations]
    split
    · split
      · next f hf => exact placeless_error (placeless_enrol before t f hf)
      · exact ih _
    · exact placeless_error rfl

theorem placeless_enrolClasses (before : List Token) (rank : Nat) (cs : List PrecedenceClass) :
    Placeless (enrolClasses before rank cs) := by
  induction cs generalizing before rank with
  | nil => exact placeless_ok _
  | cons c cs ih =>
    rw [enrolClasses]
    split
    · exact placeless_error rfl
    · split
      · next f hf => exact placeless_error (placeless_enrolOperations before _ f hf)
      · exact ih _ _

theorem placeless_enrolBrackets (before : List Token) (bs : List BracketPair) :
    Placeless (enrolBrackets before bs) := by
  induction bs generalizing before with
  | nil => exact placeless_ok _
  | cons b bs ih =>
    rw [enrolBrackets]
    split
    · split
      · next f hf => exact placeless_error (placeless_enrol before _ f hf)
      · split
        · next f hf => exact placeless_error (placeless_enrol _ _ f hf)
        · exact ih _
    · exact placeless_error rfl

theorem placeless_build? (classes : List PrecedenceClass) (brackets : List BracketPair) :
    Placeless (Grammar.build? classes brackets) := by
  unfold Grammar.build?
  split
  · next f hf =>
    refine placeless_error ?_
    unfold enrolAll at hf
    split at hf
    · next f' hclasses =>
      obtain rfl := Except.error.inj hf
      exact placeless_enrolClasses _ _ _ f' hclasses
    · exact placeless_enrolBrackets _ _ f hf
  · exact placeless_ok _

/-- **No refusal of a table has a place.** -/
theorem placeless_ofDeclarations? (ds : List Declaration) :
    Placeless (Grammar.ofDeclarations? ds) := by
  rw [Grammar.ofDeclarations?_eq]
  exact (placeless_mapM placeless_decode _).bind fun _ => placeless_build? _ _

/-! ## §3 Files -/

namespace Grammar

open File

theorem lines?_eq_error {before behind : List (List Char)} {line : List Char} (n : Nat)
    (hbefore : ∀ l ∈ before, ∃ ds, line? l = some ds) (hline : line? line = none) :
    lines? n (before ++ line :: behind) = .error (n + before.length) := by
  induction before generalizing n with
  | nil =>
    rw [List.nil_append, lines?, hline]
    rfl
  | cons l before ih =>
    obtain ⟨⟨ds, hds⟩, hmore⟩ := List.forall_mem_cons.mp hbefore
    rw [List.cons_append, lines?, hds, ih _ hmore, List.length_cons]
    exact congrArg Except.error (by omega)

theorem lines?_eq_ok {lines : List (List Char)} {dss : List (List Declaration)} (n : Nat)
    (hfeed : ∀ l ∈ lines, '\n' ∉ l) (h : List.Forall₂ Says lines dss) :
    lines? n lines = .ok dss.flatten := by
  induction h generalizing n with
  | nil => rfl
  | cons hform _ ih =>
    obtain ⟨hline, hmore⟩ := List.forall_mem_cons.mp hfeed
    rw [lines?, (line?_eq_some_iff hline).mpr hform, ih _ hmore, List.flatten_cons]
    rfl

section

variable {cs : List Char}

theorem newline_not_mem_line {l : List Char} (hl : l ∈ Text.lines cs) : '\n' ∉ l := by
  obtain ⟨line, lines, hlines, -, hline, hmore⟩ := Text.exists_lines cs
  rw [hlines, List.mem_cons] at hl
  rcases hl with rfl | hl
  · exact hline
  · exact hmore l hl

/-- If every line has a form, the text is read to what its lines say. -/
theorem declarations?_of_forms {dss : List (List Declaration)}
    (h : List.Forall₂ Says (Text.lines cs) dss) :
    declarations? .outset {} {} cs = .ok dss.flatten := by
  have hread := byLine_declarations? cs
  rw [lines?_eq_ok 1 (fun _ => newline_not_mem_line) h] at hread
  cases hresult : declarations? .outset {} {} cs with
  | error p => simp [hresult, byLine, Except.mapError] at hread
  | ok ds => simpa [hresult, byLine, Except.mapError] using hread

/-- **A text is not read past its first line without a form.** -/
theorem exists_declarations?_eq_error {before behind : List (List Char)} {line : List Char}
    (hlines : Text.lines cs = before ++ line :: behind)
    (hbefore : ∀ l ∈ before, ∃ ds, Says l ds) (hline : ∀ ds, ¬ Says line ds) :
    ∃ p, declarations? .outset {} {} cs = .error p ∧ p.line = before.length + 1 := by
  have hread := byLine_declarations? cs
  have hmem : line ∈ Text.lines cs := by simp [hlines]
  have hnone : line? line = none := by
    rw [Option.eq_none_iff_forall_ne_some]
    intro ds hds
    exact hline ds ((line?_eq_some_iff (newline_not_mem_line hmem)).mp hds)
  have hsome : ∀ l ∈ before, ∃ ds, line? l = some ds := by
    intro l hl
    obtain ⟨ds, hds⟩ := hbefore l hl
    have hmem : l ∈ Text.lines cs := hlines ▸ List.mem_append_left _ hl
    exact ⟨ds, (line?_eq_some_iff (newline_not_mem_line hmem)).mpr hds⟩
  rw [hlines, lines?_eq_error 1 hsome hnone] at hread
  cases hresult : declarations? .outset {} {} cs with
  | error p =>
    refine ⟨p, rfl, ?_⟩
    simpa [hresult, byLine, Except.mapError, Nat.add_comm] using hread
  | ok ds => simp [hresult, byLine, Except.mapError] at hread

/-- Every line has a form, or there is a first one that has none. -/
theorem exists_formless (lines : List (List Char)) : (∀ l ∈ lines, ∃ ds, Says l ds) ∨
    ∃ before line behind, lines = before ++ line :: behind ∧ (∀ l ∈ before, ∃ ds, Says l ds) ∧
      ∀ ds, ¬ Says line ds := by
  induction lines with
  | nil => exact .inl (by simp)
  | cons l lines ih =>
    by_cases hl : ∃ ds, Says l ds
    · rcases ih with hall | ⟨before, line, behind, rfl, hbefore, hline⟩
      · exact .inl (List.forall_mem_cons.mpr ⟨hl, hall⟩)
      · exact .inr ⟨l :: before, line, behind, rfl, List.forall_mem_cons.mpr ⟨hl, hbefore⟩, hline⟩
    · exact .inr ⟨[], l, lines, rfl, by simp, not_exists.mp hl⟩

/-- **A text can be read if and only if each of its lines has a form.** -/
theorem exists_declarations?_eq_ok_iff :
    (∃ ds, declarations? .outset {} {} cs = .ok ds) ↔ ∀ l ∈ Text.lines cs, ∃ ds, Says l ds := by
  constructor
  · rintro ⟨ds, hread⟩
    rcases exists_formless (Text.lines cs) with
      hall | ⟨before, line, behind, hlines, hbefore, hline⟩
    · exact hall
    · obtain ⟨p, hp, -⟩ := exists_declarations?_eq_error hlines hbefore hline
      simp [hread] at hp
  · intro hall
    have hread : ∀ l ∈ Text.lines cs, Says l ((line? l).getD []) := by
      intro l hl
      obtain ⟨ds, hds⟩ := hall l hl
      rwa [(line?_eq_some_iff (newline_not_mem_line hl)).mpr hds]
    refine ⟨((Text.lines cs).map fun l => (line? l).getD []).flatten, declarations?_of_forms ?_⟩
    rw [List.forall₂_map_right_iff, List.forall₂_same]
    exact hread

end

/-- **A file comes to what its lines say.** It can be read if and only if each of its lines has a
form. If not, it is refused at the first line that has none, even where lines before or behind it
make no grammar. If all lines have a form, the result is that of the table of their classes and
pairs, and a refusal has no place. -/
theorem ofFileText?_eq_lines (text source : String) :
    ((∃ ds, declarations? .outset {} {} text.toList = .ok ds) ↔
      ∀ l ∈ Text.lines text.toList, ∃ ds, Says l ds) ∧
    (∀ before line behind, Text.lines text.toList = before ++ line :: behind →
      (∀ l ∈ before, ∃ ds, Says l ds) → (∀ ds, ¬ Says line ds) →
      ∃ f, ofFileText? text source = .error f ∧ f.report.line = some ((before.length : Int) + 1)) ∧
    ∀ dss, List.Forall₂ Says (Text.lines text.toList) dss →
      ofFileText? text source = (do
        let classes ← (dss.flatten.filterMap (·.class?)).mapM Declaration.decode
        build? classes ((dss.flatten.filterMap (·.pair?)).map fun p => .ofSymbols p.1 p.2)) ∧
      ∀ f, ofFileText? text source = .error f → f.report.line = none := by
  refine ⟨exists_declarations?_eq_ok_iff, ?_, ?_⟩
  · intro before line behind hlines hbefore hline
    obtain ⟨p, hread, hposition⟩ := exists_declarations?_eq_error hlines hbefore hline
    refine ⟨_, by rw [ofFileText?, hread], ?_⟩
    rw [GrammarFault.report, hposition]
    rfl
  · intro dss hforms
    have hread : ofFileText? text source = ofDeclarations? dss.flatten := by
      rw [ofFileText?, declarations?_of_forms hforms]
    rw [hread]
    exact ⟨ofDeclarations?_eq _, placeless_ofDeclarations? _⟩

/-- An operation of three operands is no obstacle to reading on: a line that has no form is found
behind it. -/
theorem ofFileText?_formless : ∃ f, ofFileText? "left 3*\ngroup (\n" "table" = .error f ∧
    f.report.line = some 2 := by
  have hfirst : Says "left 3*".toList [.precedence "left" [(3, "*")]] :=
    (line?_eq_some_iff (by decide)).mp (by decide)
  have hsecond : ∀ ds, ¬ Says "group (".toList ds := by
    intro ds hform
    have hread := (line?_eq_some_iff (by decide)).mpr hform
    have hnone : line? "group (".toList = none := by decide
    rw [hnone] at hread
    contradiction
  exact (ofFileText?_eq_lines "left 3*\ngroup (\n" "table").2.1 ["left 3*".toList]
    "group (".toList [[]] (by decide) (by simpa using ⟨_, hfirst⟩) hsecond

end Grammar

end Fixity
