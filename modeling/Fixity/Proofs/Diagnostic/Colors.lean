import Fixity.Proofs.Diagnostic.Carets
import Fixity.Reporter
import Mathlib.Data.List.Forall2

/-!
# Colour and text

Colour is made of escape sequences: an escape character, a bracket, some digits and semicolons, and
the letter `m`. They are taken out of a text in one pass from the left. What follows a sequence may
well begin with digits or with the letter, but it does not get lost, as the sequence is over at its
own letter. So a coloured text that is put in front of another one can be cleared on its own, and a
diagnostic can be cleared part by part.

## Main statements

- `Style.unstyle_escape`: a sequence is taken out, and what follows it stays
- `Style.paints_paint`: a text in a style becomes the text again
- `Diagnostic.rel_format?`: a diagnostic can be laid out in colour if it can be without
- `color_keeps_text`: colour changes neither the text of a diagnostic nor that of a report
-/

namespace Fixity

namespace Style

/-! ## §1 Taking sequences out -/

/-- The character that every escape sequence begins with. -/
def escapeChar : Char := '\x1b'

/-- Whether a character may stand between the bracket and the letter of a sequence. -/
def isParameter (c : Char) : Bool :=
  c.isDigit || c = ';'

/-- How many characters parameters and the letter behind them take up at the beginning of a text. -/
def parameters? : List Char → Option Nat
  | [] => none
  | c :: cs =>
    if c = 'm' then some 1
    else if isParameter c then (parameters? cs).map (· + 1)
    else none

/-- How many characters behind an escape character belong to a sequence. -/
def sequence? : List Char → Option Nat
  | '[' :: cs => (parameters? cs).map (· + 1)
  | _ => none

/-- Takes the sequences out of a text, from the left; the first `skip` characters belong to one
    that has begun. -/
def unstyleFrom : (skip : Nat) → List Char → List Char
  | _, [] => []
  | skip + 1, _ :: cs => unstyleFrom skip cs
  | 0, c :: cs =>
    match if c = escapeChar then sequence? cs else none with
    | some n => unstyleFrom n cs
    | none => c :: unstyleFrom 0 cs

/-- The characters of a text without its escape sequences. -/
def unstyle (cs : List Char) : List Char :=
  unstyleFrom 0 cs

/-- A text without its escape sequences. -/
def unstyled (s : String) : String :=
  String.ofList (unstyle s.toList)

theorem unstyle_skip (skip : Nat) (cs : List Char) :
    unstyleFrom skip cs = unstyle (cs.drop skip) := by
  induction cs generalizing skip with
  | nil => cases skip <;> simp [unstyle, unstyleFrom]
  | cons c cs ih =>
    cases skip with
    | zero => rfl
    | succ k => simp [unstyleFrom, ih]

/-- A character that begins no sequence stays. -/
theorem unstyle_cons {c : Char} (hc : c ≠ escapeChar) (cs : List Char) :
    unstyle (c :: cs) = c :: unstyle cs := by
  simp [unstyle, unstyleFrom, hc]

theorem parameters?_append {ps : List Char} (h : ∀ c ∈ ps, isParameter c = true)
    (rest : List Char) : parameters? (ps ++ 'm' :: rest) = some (ps.length + 1) := by
  induction ps with
  | nil => rfl
  | cons c ps ih =>
    obtain ⟨hc, hps⟩ := List.forall_mem_cons.mp h
    have hletter : c ≠ 'm' := by
      intro hm
      rw [hm] at hc
      contradiction
    rw [List.cons_append, parameters?, if_neg hletter, if_pos hc, ih hps]
    rfl

/-- **A sequence is taken out, and what follows it stays.** -/
theorem unstyle_escape {number : String} (h : number.toList.all isParameter = true)
    (rest : List Char) : unstyle ((escape number).toList ++ rest) = unstyle rest := by
  have htext : (escape number).toList ++ rest =
      escapeChar :: '[' :: (number.toList ++ 'm' :: rest) := by
    simp [escape, escapeChar]
  have hlength : sequence? ('[' :: (number.toList ++ 'm' :: rest)) =
      some (number.toList.length + 1 + 1) := by
    rw [sequence?, parameters?_append (List.all_eq_true.mp h)]
    rfl
  have hdrop : ('[' :: (number.toList ++ 'm' :: rest)).drop (number.toList.length + 1 + 1) =
      rest := by
    simp [List.drop_append]
  rw [htext, unstyle, unstyleFrom, if_pos rfl, hlength]
  show unstyleFrom (number.toList.length + 1 + 1) _ = unstyle rest
  rw [unstyle_skip, hdrop]

/-! ## §2 Coloured texts and plain ones -/

/-- The text holds no escape character. -/
def Plain (s : String) : Prop :=
  escapeChar ∉ s.toList

instance (s : String) : Decidable (Plain s) :=
  inferInstanceAs (Decidable (escapeChar ∉ s.toList))

@[simp] theorem plain_append {s t : String} : Plain (s ++ t) ↔ Plain s ∧ Plain t := by
  simp [Plain, not_or]

/-- One text is the other one in colour: in front of any text it leaves the other one behind when
the sequences are taken out. -/
def Paints (styled plain : String) : Prop :=
  ∀ rest, unstyle (styled.toList ++ rest) = plain.toList ++ unstyle rest

variable {s s' p p' : String}

theorem Paints.unstyled_eq (h : Paints s p) : unstyled s = p := by
  have hempty : unstyle s.toList = p.toList := by simpa [unstyle, unstyleFrom] using h []
  rw [unstyled, hempty, String.ofList_toList]

theorem Paints.append (h : Paints s p) (h' : Paints s' p') : Paints (s ++ s') (p ++ p') := by
  intro rest
  rw [String.toList_append, String.toList_append, List.append_assoc, List.append_assoc, h, h']

/-- A text without escape characters stays as it is. -/
theorem Plain.paints (h : Plain s) : Paints s s := by
  have hkeep : ∀ cs : List Char, escapeChar ∉ cs → ∀ rest,
      unstyle (cs ++ rest) = cs ++ unstyle rest := by
    intro cs
    induction cs with
    | nil => exact fun _ _ => rfl
    | cons c cs ih =>
      intro hcs rest
      obtain ⟨hc, hcs⟩ := List.ne_and_not_mem_of_not_mem_cons hcs
      rw [List.cons_append, unstyle_cons hc.symm, ih hcs]
      rfl
  exact hkeep s.toList h

theorem paints_code (style : Style) : Paints style.code "" := by
  intro rest
  cases style <;> exact unstyle_escape (by decide) rest

theorem paints_join_code (styles : List Style) : Paints (String.join (styles.map code)) "" := by
  induction styles with
  | nil => exact Plain.paints (by decide)
  | cons style styles ih =>
    rw [List.map_cons, String.join_cons]
    exact (paints_code style).append ih

/-- **A text in styles becomes the text again.** -/
theorem paints_paint (styles : List Style) {text : String} (h : Plain text) :
    Paints (paint true styles text) (paint false styles text) := by
  have hreset : Paints reset "" := fun rest => unstyle_escape (by decide) rest
  have hall := ((paints_join_code styles).append h.paints).append hreset
  simpa [paint] using hall

theorem paints_intercalate {sep : String} (hsep : Plain sep) {styled plain : List String}
    (h : List.Forall₂ Paints styled plain) :
    Paints (sep.intercalate styled) (sep.intercalate plain) := by
  have hnil : Plain "" := by decide
  induction h with
  | nil => exact hnil.paints
  | @cons s p ss ps hhead htail ih =>
    by_cases hlast : ps = []
    · obtain rfl : ss = [] := by simpa [hlast] using htail
      simpa [hlast] using hhead
    · have hmore : ss ≠ [] := fun hss => hlast (by simpa [hss] using htail)
      rw [String.intercalate_cons_of_ne_nil hmore, String.intercalate_cons_of_ne_nil hlast]
      exact (hhead.append hsep.paints).append ih

theorem rel_bind {α β : Type} {r : α → α → Prop} {q : β → β → Prop} {f f' : α → Option β}
    {x y : Option α} (h : Option.Rel r x y) (hf : ∀ {a b : α}, r a b → Option.Rel q (f a) (f' b)) :
    Option.Rel q (x >>= f) (y >>= f') := by
  cases h with
  | some h => exact hf h
  | none => exact .none

theorem rel_map {α β : Type} {r : α → α → Prop} {q : β → β → Prop} {f f' : α → β} {x y : Option α}
    (h : Option.Rel r x y) (hf : ∀ {a b : α}, r a b → q (f a) (f' b)) :
    Option.Rel q (x.map f) (y.map f') := by
  rw [Option.map_eq_bind, Option.map_eq_bind]
  exact rel_bind h fun hab => .some (hf hab)

/-- If both texts exist or none, and one is the other in colour, nothing but colour is lost. -/
theorem map_unstyled_eq {s? p? : Option String} (h : Option.Rel Paints s? p?) :
    s?.map unstyled = p? := by
  cases h with
  | some h => exact congrArg some h.unstyled_eq
  | none => rfl

end Style

open Style

/-! ## §3 Texts of a diagnostic that are always plain -/

theorem plain_natToString (n : Nat) : Plain (toString n) := by
  intro hmem
  have hdigits : (toString n).toList = Nat.toDigits 10 n := String.toList_ofList
  rw [hdigits] at hmem
  have hdigit := Nat.isDigit_of_mem_toDigits (by decide) (by decide) hmem
  contradiction

theorem plain_intToString (i : Int) : Plain (toString i) := by
  cases i with
  | ofNat n => exact plain_natToString n
  | negSucc n =>
    have hsign : toString (Int.negSucc n) = "-" ++ toString (n + 1) := rfl
    rw [hsign, plain_append]
    exact ⟨by decide, plain_natToString (n + 1)⟩

theorem Span.plain_position (s : Span) : Plain s.position := by
  have htext : s.position = toString s.line ++ ":" ++ toString s.column := by
    simp [position, toString]
  rw [htext, plain_append, plain_append]
  exact ⟨⟨plain_intToString s.line, by decide⟩, plain_intToString s.column⟩

theorem Span.plain_carets? {spans : List Span} {width : Int} {carets : String}
    (h : carets? spans width = some carets) : Plain carets := by
  intro hmem
  rcases (shows_carets? h).cells escapeChar hmem with hcell | hcell
  · contradiction
  · contradiction

namespace Diagnostic

theorem plain_spaces (n : Nat) : Plain (spaces n) := by
  intro hmem
  rw [spaces, String.toList_ofList] at hmem
  have hspace := List.eq_of_mem_replicate hmem
  contradiction

/-- A quoted line is a part of the source. -/
theorem plain_sourceLine {source : String} (h : Plain source) (line : Int) :
    Plain (sourceLine source line) := by
  unfold sourceLine
  split
  · intro hmem
    rw [String.toList_ofList] at hmem
    cases hline : (Text.lines source.toList)[(line - 1).toNat]? with
    | none =>
      rw [hline] at hmem
      exact absurd hmem List.not_mem_nil
    | some l =>
      rw [hline, Option.getD_some] at hmem
      exact h (Text.subset_of_mem_lines (List.mem_of_getElem? hline) hmem)
  · decide

/-! ## §4 Parts of a diagnostic -/

/-- All texts that a diagnostic is made of. -/
def texts (d : Diagnostic) : List String :=
  [d.message, d.inputName] ++
    (d.code.toList ++ d.help.toList ++ d.note.toList ++ d.label.toList)

theorem plain_given {part : Option String} (h : ∀ s ∈ part, Plain s) : ∀ s ∈ given part, Plain s := by
  intro s hs
  exact h s (Option.mem_filter_iff.mp hs).1

/-- A part that is not given leaves nothing behind, and one that is given may be put between other
texts. -/
theorem plain_part {part : Option String} (h : ∀ s ∈ part, Plain s) {frame : String → String}
    (hframe : ∀ s, Plain s → Plain (frame s)) : Plain (((given part).map frame).getD "") := by
  have hempty : Plain "" := by decide
  cases hgiven : given part with
  | none => exact hempty
  | some s => exact hframe s (plain_given h s hgiven)

theorem paints_bar (gutter : Nat) :
    Paints (paint true [.bold, .blue] (spaces (gutter + 1) ++ "|"))
      (paint false [.bold, .blue] (spaces (gutter + 1) ++ "|")) :=
  paints_paint _ (plain_append.mpr ⟨plain_spaces _, by decide⟩)

theorem paints_advice (gutter : Nat) {title text : String} (htitle : Plain title)
    (htext : Plain text) : Paints (advice true gutter title text) (advice false gutter title text) := by
  have hindent : Plain (spaces (gutter + 1) ++ "= ") :=
    plain_append.mpr ⟨plain_spaces _, by decide⟩
  have hlead : Plain (title ++ ": ") := plain_append.mpr ⟨htitle, by decide⟩
  exact ((paints_paint _ hindent).append (paints_paint _ hlead)).append htext.paints

section Parts

variable {d : Diagnostic} (hd : ∀ s ∈ d.texts, Plain s)
include hd

theorem plain_parts : (∀ s ∈ d.code, Plain s) ∧ (∀ s ∈ d.help, Plain s) ∧
    (∀ s ∈ d.note, Plain s) ∧ ∀ s ∈ d.label, Plain s := by
  refine ⟨?_, ?_, ?_, ?_⟩ <;> intro s hs <;> apply hd <;> simp [texts, Option.mem_def.mp hs]

theorem paints_header : Paints (d.header true) (d.header false) := by
  obtain ⟨hparts, -⟩ := plain_parts hd
  have hcode : Plain (((given d.code).map fun c => "[" ++ c ++ "]").getD "") := by
    apply plain_part hparts
    intro c hc
    rw [plain_append, plain_append]
    exact ⟨⟨by decide, hc⟩, by decide⟩
  have hmessage : Plain d.message := hd _ (by simp [texts])
  apply (paints_paint _ _).append (paints_paint _ _)
  · exact plain_append.mpr ⟨by decide, hcode⟩
  · exact plain_append.mpr ⟨by decide, hmessage⟩

theorem paints_annotations (gutter : Nat) :
    List.Forall₂ Paints (d.annotations true gutter) (d.annotations false gutter) := by
  obtain ⟨-, hhelp, hnote, -⟩ := plain_parts hd
  have hadvice : ∀ {title : String} {part : Option String}, Plain title → (∀ s ∈ part, Plain s) →
      List.Forall₂ Paints ((given part).map (advice true gutter title)).toList
        ((given part).map (advice false gutter title)).toList := by
    intro title part htitle hpart
    cases hgiven : given part with
    | none => exact .nil
    | some text => exact .cons (paints_advice gutter htitle (plain_given hpart text hgiven)) .nil
  have hframed : ∀ {styled plain : List String}, List.Forall₂ Paints styled plain →
      List.Forall₂ Paints
        (if styled = [] then [] else
          paint true [.bold, .blue] (spaces (gutter + 1) ++ "|") :: styled)
        (if plain = [] then [] else
          paint false [.bold, .blue] (spaces (gutter + 1) ++ "|") :: plain) := by
    intro styled plain h
    cases h with
    | nil => exact .nil
    | cons hfirst hmore => exact .cons (paints_bar gutter) (.cons hfirst hmore)
  have hhelpTitle : Plain "help" := by decide
  have hnoteTitle : Plain "note" := by decide
  exact hframed (List.rel_append (hadvice hhelpTitle hhelp) (hadvice hnoteTitle hnote))

theorem rel_excerpt? {source : String} (hsource : Plain source) (gutter : Nat) (line : Int) :
    Option.Rel (List.Forall₂ Paints) (d.excerpt? true gutter source line)
      (d.excerpt? false gutter source line) := by
  obtain ⟨-, -, -, hparts⟩ := plain_parts hd
  have hlabel : Plain (((given d.label).map (" " ++ ·)).getD "") := by
    apply plain_part hparts
    intro label hlabel
    exact plain_append.mpr ⟨by decide, hlabel⟩
  unfold excerpt?
  cases hcarets : Span.carets? d.spans 0 with
  | none => exact .none
  | some carets =>
    have hnumber : Plain (toString line ++ " | ") :=
      plain_append.mpr ⟨plain_intToString line, by decide⟩
    have hindent : Plain (spaces (gutter + 1) ++ "| ") :=
      plain_append.mpr ⟨plain_spaces _, by decide⟩
    have hmarks := plain_append.mpr ⟨Span.plain_carets? hcarets, hlabel⟩
    have hquoted := (plain_sourceLine hsource line).paints
    have hthree := (paints_paint [.bold, .blue] hindent).append (paints_paint [.bold, .red] hmarks)
    exact .some (.cons (paints_bar gutter)
      (.cons ((paints_paint _ hnumber).append hquoted) (.cons hthree .nil)))

/-! ## §5 Diagnostics and reports -/

theorem rel_lines? {source : Option String} (hsource : ∀ s ∈ source, Plain s) :
    Option.Rel (List.Forall₂ Paints) (d.lines? source true) (d.lines? source false) := by
  have hheader := paints_header hd
  have hname : Plain d.inputName := hd _ (by simp [texts])
  unfold lines?
  cases hfirst : firstSpan? d.spans with
  | none =>
    have harrow : Plain " --> " := by decide
    exact .some (.cons hheader (.cons ((paints_paint _ harrow).append hname.paints)
      (paints_annotations hd 1)))
  | some first =>
    have hannotations := paints_annotations hd (toString first.line).length
    have harrow : Plain (spaces (toString first.line).length ++ "--> ") :=
      plain_append.mpr ⟨plain_spaces _, by decide⟩
    have hcolon : Plain ":" := by decide
    have hplace := (((paints_paint [.bold, .blue] harrow).append hname.paints).append
      hcolon.paints).append first.plain_position.paints
    cases source with
    | none => exact .some (.cons hheader (.cons hplace hannotations))
    | some source =>
      have hexcerpt := rel_excerpt? hd (hsource source rfl) (toString first.line).length first.line
      apply rel_map hexcerpt
      intro styled plain hmiddle
      exact List.rel_append (.cons hheader (.cons hplace hmiddle)) hannotations

/-- **A diagnostic can be laid out in colour if and only if it can be without**, and nothing but the
colour is different. -/
theorem rel_format? {source : Option String} (hsource : ∀ s ∈ source, Plain s) :
    Option.Rel Paints (d.format? source true) (d.format? source false) := by
  have hnewline : Plain "\n" := by decide
  exact rel_map (rel_lines? hd hsource) (paints_intercalate hnewline)

end Parts

end Diagnostic

namespace Reporter

variable {r : Reporter}

theorem rel_mapM {α : Type} {f f' : α → Option String} {as : List α}
    (h : ∀ a ∈ as, Option.Rel Paints (f a) (f' a)) :
    Option.Rel (List.Forall₂ Paints) (as.mapM f) (as.mapM f') := by
  induction as with
  | nil => exact .some .nil
  | cons a as ih =>
    obtain ⟨ha, has⟩ := List.forall_mem_cons.mp h
    rw [List.mapM_cons, List.mapM_cons]
    apply rel_bind ha
    intro first first' hfirst
    exact rel_bind (ih has) fun hrest => .some (.cons hfirst hrest)

theorem paints_verdict (count : Nat) : Paints (verdict count true) (verdict count false) := by
  have herror : Plain "error" := by decide
  have hplural : Plain (if count = 1 then "" else "s") := by
    split
    · decide
    · decide
  have hcount : Plain (": aborting due to " ++ toString count ++ " previous error" ++
      if count = 1 then "" else "s") := by
    simp only [plain_append]
    exact ⟨⟨⟨by decide, plain_natToString count⟩, by decide⟩, hplural⟩
  exact (paints_paint _ herror).append (paints_paint _ hcount)

theorem rel_formatAll? (h : ∀ d ∈ r.errors, (∀ s ∈ d.texts, Plain s) ∧
    ∀ s ∈ r.source? d.inputName, Plain s) :
    Option.Rel Paints (r.formatAll? true) (r.formatAll? false) := by
  have hgap : Plain "\n\n" := by decide
  have hformats : Option.Rel (List.Forall₂ Paints) (r.formats? true) (r.formats? false) :=
    rel_mapM fun d hd => Diagnostic.rel_format? (h d hd).1 (h d hd).2
  apply rel_map hformats
  intro styled plain hparts
  have hall := List.rel_append hparts (.cons (paints_verdict r.errors.length) .nil)
  exact paints_intercalate hgap hall

end Reporter

/-- **Colour does not change the text.** A diagnostic whose texts hold no escape character, over a
source that holds none or without a source, is laid out in colour if and only if it is laid out
without colour, and when the escape sequences are taken out of the one, the other is left. The same
holds of the report on any number of diagnostics. -/
theorem color_keeps_text :
    (∀ (d : Diagnostic) (source : Option String), (∀ s ∈ d.texts, Plain s) →
      (∀ s ∈ source, Plain s) → (d.format? source true).map unstyled = d.format? source false) ∧
    ∀ r : Reporter, (∀ d ∈ r.errors, (∀ s ∈ d.texts, Plain s) ∧
      ∀ s ∈ r.source? d.inputName, Plain s) →
        (r.formatAll? true).map unstyled = r.formatAll? false := by
  constructor
  · intro d source hd hsource
    exact map_unstyled_eq (Diagnostic.rel_format? hd hsource)
  · intro r h
    exact map_unstyled_eq (Reporter.rel_formatAll? h)

/-- A report on two inputs, one of them without a source. The texts begin with what could be the
rest of a sequence. -/
def lookalikes : Reporter where
  sources := [("line", "( m ]")]
  errors := [
    { message := "1m is missing", spans := [⟨0, 1, 1⟩, ⟨4, 5, 1⟩], code := some "0;1m"
      inputName := "line", help := some "m", label := some ";31m" },
    { message := "[0m", note := some "m" }]

theorem color_keeps_text_lookalikes :
    (∀ d ∈ lookalikes.errors,
      (d.format? (lookalikes.source? d.inputName) true).map unstyled =
        d.format? (lookalikes.source? d.inputName) false) ∧
    ∃ coloured plain, lookalikes.formatAll? true = some coloured ∧
      lookalikes.formatAll? false = some plain ∧ unstyled coloured = plain ∧ coloured ≠ plain := by
  have hplain : ∀ d ∈ lookalikes.errors, (∀ s ∈ d.texts, Plain s) ∧
      ∀ s ∈ lookalikes.source? d.inputName, Plain s := by decide
  refine ⟨fun d hd => color_keeps_text.1 d _ (hplain d hd).1 (hplain d hd).2, _, _, rfl, rfl, ?_, ?_⟩
  · exact Option.some.inj (color_keeps_text.2 lookalikes hplain)
  · decide

end Fixity
