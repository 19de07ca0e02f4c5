import Fixity.Proofs.Diagnostic.Carets
import Fixity.Proofs.Parse.Diagnosis
import Fixity.Proofs.Pieces.Tiling

/-!
# What a diagnostic points at

The tokens to blame are tokens of the line, each where its symbol was read, or the sentinel of its
end, which stands behind the last token and takes up nothing. So all of them have a place, and the
carets below the quoted line are found at their offsets. What is said about the layout holds for
any parse error about places in a line; which places these are is known from the run alone.

## Main statements

- `ParseError.exists_layout`: a parse error about places in a line is laid out over it
- `exists_blaming`: a line without a tree has a parse error that blames something
- `carets_point`: its diagnostic points at the tokens to blame
-/

namespace Fixity

open Checker

variable {g : Grammar} {line : String} {tokens : List Token}

/-! ## §1 The layout of a parse error -/

namespace ParseError

/-- The lines of a parse error about an input of one line, without colour. -/
def layout (e : ParseError) (line : String) (first : Int) (carets : String) : List String :=
  [s!"error[{e.category.code}]: {e.message}",
   s!" --> <input>:1:{first + 1}",
   "  |",
   "1 | " ++ line,
   "  | " ++ carets ++ e.category.label.elim "" (" " ++ ·)] ++
  e.help.elim [] fun help => ["  |", "  = help: " ++ help]

/-- A text without line feeds is its own first line. -/
theorem sourceLine_one (hline : '\n' ∉ line.toList) : Diagnostic.sourceLine line 1 = line := by
  simp [Diagnostic.sourceLine, Text.lines_eq_singleton hline]

/-- Every category has a code to show. -/
theorem header_diagnostic (e : ParseError) (name : String) :
    (e.diagnostic name).header false = s!"error[{e.category.code}]: {e.message}" := by
  have hcode : Diagnostic.given (some e.category.code) = some e.category.code := by
    cases e.category <;> rfl
  simp only [Diagnostic.header, diagnostic, hcode, Style.paint]
  apply String.toList_injective
  simp [toString]

/-- A parse error has at most one piece of advice. -/
theorem annotations_diagnostic {e : ParseError} (h : e.help ≠ some "") (name : String) :
    (e.diagnostic name).annotations false 1 =
      e.help.elim [] fun help => ["  |", "  = help: " ++ help] := by
  have hindent : Diagnostic.spaces 2 = "  " := rfl
  cases hhelp : e.help with
  | none => simp [Diagnostic.annotations, diagnostic, hhelp, Diagnostic.given]
  | some help =>
    have hne : help ≠ "" := fun hempty => h (by rw [hhelp, hempty])
    simp [Diagnostic.annotations, diagnostic, hhelp, Diagnostic.given, hne, Diagnostic.advice,
      Style.paint, hindent]

/-- The line, and the carets with their label below it. -/
theorem excerpt?_diagnostic {e : ParseError} (hline : '\n' ∉ line.toList) {carets : String}
    (hcarets : Span.carets? e.spans 0 = some carets) (name : String) :
    (e.diagnostic name).excerpt? false 1 line 1 = some
      ["  |", "1 | " ++ line, "  | " ++ carets ++ e.category.label.elim "" (" " ++ ·)] := by
  have hlabel : ((Diagnostic.given e.category.label).map (" " ++ ·)).getD "" =
      e.category.label.elim "" (" " ++ ·) := by
    cases e.category <;> rfl
  have hindent : Diagnostic.spaces 2 = "  " := rfl
  have hone : toString (1 : Int) = "1" := rfl
  simp only [Diagnostic.excerpt?, diagnostic, hcarets, Option.map_some, hlabel,
    sourceLine_one hline, Style.paint, hindent, hone]
  simp [String.append_assoc]

/-- **The layout of a parse error** about an input of one line. -/
theorem format?_eq_layout {e : ParseError} (hhelp : e.help ≠ some "") (hline : '\n' ∉ line.toList)
    {first : Span} (hfirst : Diagnostic.firstSpan? e.spans = some first) (hone : first.line = 1)
    {carets : String} (hcarets : Span.carets? e.spans 0 = some carets) :
    e.format? line false "<input>" =
      some ("\n".intercalate (e.layout line first.start carets)) := by
  have hspans : (e.diagnostic "<input>").spans = e.spans := rfl
  have hgutter : (toString (1 : Int)).length = 1 := by decide
  have harrow : Style.paint false [.bold, .blue] (Diagnostic.spaces 1 ++ "--> ") ++ "<input>" ++
      ":" ++ first.position = s!" --> <input>:1:{first.start + 1}" := by
    have hindent : Diagnostic.spaces 1 = " " := rfl
    have hdigit : Int.repr 1 = "1" := rfl
    apply String.toList_injective
    simp [toString, Span.position, Span.column, Style.paint, hone, hindent, hdigit]
  simp only [format?, Diagnostic.format?, Diagnostic.lines?, hspans, hfirst, hone, hgutter,
    excerpt?_diagnostic hline hcarets, header_diagnostic, annotations_diagnostic hhelp,
    Option.map_some]
  rw [layout, ← harrow]
  rfl

/-- **A parse error about places in a line is laid out over it**, with the carets at its offsets. -/
theorem exists_layout {e : ParseError} (hhelp : e.help ≠ some "") (hline : '\n' ∉ line.toList)
    (hne : e.spans ≠ [])
    (hplaces : ∀ s ∈ e.spans, ∃ start stop : Nat, s = ⟨start, stop, 1⟩ ∧ start ≤ stop) :
    ∃ offsets first carets, e.offsets? = some offsets ∧ offsets.min? = some first ∧
      (∀ i ∈ offsets, 0 ≤ i) ∧ Shows carets (· ∈ offsets) ∧
      carets.toList.getLast? = some '^' ∧
      e.format? line false "<input>" = some ("\n".intercalate (e.layout line first carets)) := by
  have hlength : ¬ ∃ s ∈ e.spans, s.stop < s.start := by
    rintro ⟨s, hs, hlt⟩
    obtain ⟨start, stop, rfl, hle⟩ := hplaces s hs
    exact absurd hlt (by simpa using hle)
  obtain ⟨first, hfirst⟩ := Option.ne_none_iff_exists'.mp
    (mt Diagnostic.firstSpan?_eq_none_iff.mp hne)
  obtain ⟨carets, hcarets⟩ := Option.ne_none_iff_exists'.mp
    (mt (@Span.carets?_eq_none_iff e.spans 0).mp hlength)
  obtain ⟨marks, hmarks⟩ := Option.ne_none_iff_exists'.mp (mt Span.allMarks?_eq_none_iff.mp hlength)
  have hoffsets : e.offsets? = some _ := congrArg (Option.map _) hmarks
  have hmin := min?_offsets hoffsets hfirst
  -- no offset is before the first one, which is a place in the line
  obtain ⟨start, stop, hplace, -⟩ := hplaces first (Diagnostic.mem_firstSpan? hfirst).1
  have hnonneg : 0 ≤ first.start := by simp [hplace]
  have hshows := Span.shows_carets? hcarets
  simp only [← mem_offsets? hoffsets] at hshows
  refine ⟨_, first.start, carets, hoffsets, hmin, ?_, hshows, ?_, ?_⟩
  · intro i hi
    exact Int.le_trans hnonneg ((List.min?_eq_some_iff.mp hmin).2 i hi)
  · refine hshows.getLast?_eq (i := start) ?_
    have hmem := (List.min?_eq_some_iff.mp hmin).1
    rwa [hplace] at hmem
  · exact format?_eq_layout hhelp hline hfirst (by rw [hplace]) hcarets

end ParseError

/-! ## §2 The tokens to blame -/

/-- A refusal gives no advice or advice that says something. -/
theorem help_ne_empty (r : Rejection) : r.error.help ≠ some "" := by
  cases r with
  | misplaced last next =>
    show Rejection.hint? last next ≠ some ""
    unfold Rejection.hint?
    split
    · decide
    · split <;> decide
  | unclosed | unopened | mismatched => simp [Rejection.error]

/-- A refusal has a token to blame, as only the sentinel of the beginning is left out. -/
theorem tokens_error_ne_nil {ts : List Token} {r : Rejection} (h : (feed g {} ts).2 = some r)
    (hstart : ∀ t ∈ ts, t.kind ≠ .start) : r.error.tokens ≠ [] := by
  obtain ⟨before, t, behind, c, rfl, -, hrefused⟩ := exists_of_feed_eq_some h
  have ht := hstart t (by simp)
  cases refuses_of_check hrefused <;> simp [Rejection.error, ht]

/-- Where the last of the tokens ends; a line without tokens ends where it begins. -/
def endOf (tokens : List Token) : Int :=
  (tokens.getLast?.bind (·.span)).elim 0 (·.stop)

section Line

variable (htokens : g.tokenize line = .ok tokens)
include htokens

/-- A token of a line holds its symbol. -/
theorem exists_slice {t : Token} (ht : t ∈ tokens) :
    ∃ start stop : Nat, t.span = some ⟨start, stop, 1⟩ ∧ start ≤ stop ∧
      (line.toList.take stop).drop start = t.symbol.toList := by
  obtain ⟨n, hspan, -, hprefix⟩ := (Grammar.tiles_tokenize htokens).exists_span ht
  refine ⟨0 + n, 0 + n + t.symbol.length, hspan, by omega, ?_⟩
  rw [List.drop_take, Nat.zero_add, Nat.add_sub_cancel_left, ← String.length_toList]
  exact (List.prefix_iff_eq_take.mp hprefix).symm

/-- The end of a line takes up nothing, behind the last token. -/
theorem span_of_endsLine {e : Token} (h : EndsLine tokens e) :
    e.span = some ⟨endOf tokens, endOf tokens, 1⟩ := by
  obtain ⟨offset, hoffset, hspan⟩ := h.span
  suffices hend : Engine.endOffset? tokens = .ok (endOf tokens) by
    rw [hspan, Except.ok.inj (hoffset.symm.trans hend)]
  cases hlast : tokens.getLast? with
  | none => simp [Engine.endOffset?, endOf, hlast]
  | some t =>
    obtain ⟨n, ht, hsymbol, -⟩ :=
      (Grammar.tiles_tokenize htokens).exists_span (List.mem_of_getLast? hlast)
    -- the last token has a length, so its end is looked at
    obtain ⟨k, hk⟩ := Nat.exists_eq_succ_of_ne_zero
      (Nat.ne_of_gt (List.length_pos_iff.mpr (Grammar.toList_ne_nil hsymbol)))
    rw [String.length_toList] at hk
    have hlength : (Span.mk (0 + n : Nat) (0 + n + t.symbol.length : Nat) 1).length? =
        some (k + 1) := by
      rw [Span.length?, if_neg (by dsimp only; omega), Option.some.injEq]
      dsimp only
      omega
    simp only [Engine.endOffset?, endOf, hlast, Option.bind_some, ht, hlength, Option.elim_some]

/-- A line does not end before it begins. -/
theorem exists_endOf : ∃ n : Nat, endOf tokens = n := by
  cases hlast : tokens.getLast? with
  | none => exact ⟨0, by simp [endOf, hlast]⟩
  | some t =>
    obtain ⟨start, stop, hspan, -⟩ := exists_slice htokens (List.mem_of_getLast? hlast)
    exact ⟨stop, by simp [endOf, hlast, hspan]⟩

/-- Whatever is blamed has a place in the line. -/
theorem exists_place {t : Token} (ht : t ∈ tokens ∨ EndsLine tokens t) :
    ∃ start stop : Nat, t.span = some ⟨start, stop, 1⟩ ∧ start ≤ stop := by
  rcases ht with ht | ht
  · obtain ⟨start, stop, hspan, hle, -⟩ := exists_slice htokens ht
    exact ⟨start, stop, hspan, hle⟩
  · obtain ⟨n, hn⟩ := exists_endOf htokens
    exact ⟨n, n, by rw [span_of_endsLine htokens ht, hn], Nat.le_refl n⟩

/-- **What a parse error blames**: at least one token, and only tokens of the line and its end. -/
theorem exists_blaming (few : g.classes.length < Grammar.bracketRank) {f : Failure}
    (h : g.parse line = .error f) :
    ∃ e, f.report = .parseError e ∧ e.tokens ≠ [] ∧ e.help ≠ some "" ∧
      ∀ t ∈ e.tokens, t ∈ tokens ∨ EndsLine tokens t := by
  obtain ⟨e, he, hblamed⟩ := exists_parseError few htokens h
  rcases refused_or_lacks few htokens h with ⟨finish, r, hends, hrefused, rfl⟩ | ⟨t, ht, found, rfl⟩
  · obtain rfl : r.error = e := Report.parseError.inj he
    refine ⟨_, rfl, tokens_error_ne_nil hrefused fun t ht => ?_, help_ne_empty r, hblamed⟩
    rcases List.mem_append.mp ht with ht | ht
    · have hsentinel := (Grammar.tokenize_knows htokens t ht).isSentinel_eq_false
      intro hk
      simp [hk, Kind.isSentinel] at hsentinel
    · rw [List.mem_singleton.mp ht, congrArg Lexeme.kind hends.lexeme]
      decide
  · obtain rfl := Report.parseError.inj he
    exact ⟨_, rfl, List.cons_ne_nil _ _, by simp, hblamed⟩

end Line

/-! ## §3 Diagnostics over the line -/

/-- **A diagnostic points at the tokens to blame.** A line without a tree has a parse error about
at least one token with a place. A token of the line stands where its symbol is read, and the end
of the line behind the last token, where it takes up nothing. The layout of the parse error quotes
the line with its first column, and below it a caret stands at just the marked offsets. -/
theorem carets_point (g : Grammar) (few : g.classes.length < Grammar.bracketRank) (line : String)
    (hline : '\n' ∉ line.toList) :
    ∃ tokens, g.tokenize line = .ok tokens ∧ ∀ f, g.parse line = .error f →
      ∃ e, f.report = .parseError e ∧ (∃ t ∈ e.tokens, t.span.isSome) ∧
        (∀ t ∈ e.tokens, t.kind ≠ .finish → ∃ start stop : Nat, t.span = some ⟨start, stop, 1⟩ ∧
          (line.toList.take stop).drop start = t.symbol.toList) ∧
        (∀ t ∈ e.tokens, t.kind = .finish → t.span = some ⟨endOf tokens, endOf tokens, 1⟩) ∧
        ∃ offsets first carets, e.offsets? = some offsets ∧ offsets.min? = some first ∧
          (∀ i ∈ offsets, 0 ≤ i) ∧ Shows carets (· ∈ offsets) ∧
          carets.toList.getLast? = some '^' ∧
          e.format? line false "<input>" =
            some ("\n".intercalate (e.layout line first carets)) := by
  obtain ⟨tokens, htokens⟩ := g.exists_tokenize line
  refine ⟨tokens, htokens, fun f hf => ?_⟩
  obtain ⟨e, he, hne, hhelp, hblamed⟩ := exists_blaming htokens few hf
  have hplaces : ∀ s ∈ e.spans, ∃ start stop : Nat, s = ⟨start, stop, 1⟩ ∧ start ≤ stop := by
    intro s hs
    obtain ⟨t, ht, hspan⟩ := List.mem_filterMap.mp hs
    obtain ⟨start, stop, hplace, hle⟩ := exists_place htokens (hblamed t ht)
    exact ⟨start, stop, Option.some.inj (hspan.symm.trans hplace), hle⟩
  obtain ⟨t, ht⟩ := List.exists_mem_of_ne_nil _ hne
  obtain ⟨start, stop, hplace, -⟩ := exists_place htokens (hblamed t ht)
  have hspans : e.spans ≠ [] := List.ne_nil_of_mem (List.mem_filterMap.mpr ⟨t, ht, hplace⟩)
  refine ⟨e, he, ⟨t, ht, by simp [hplace]⟩, fun t ht hk => ?_, fun t ht hk => ?_,
    e.exists_layout hhelp hline hspans hplaces⟩
  · -- the end of the line is its sentinel, so this is a token of the line
    have hmem := (hblamed t ht).resolve_right fun hends => hk (congrArg Lexeme.kind hends.lexeme)
    obtain ⟨start, stop, hspan, -, hslice⟩ := exists_slice htokens hmem
    exact ⟨start, stop, hspan, hslice⟩
  · refine span_of_endsLine htokens ((hblamed t ht).resolve_left fun hmem => ?_)
    have hsentinel := (Grammar.tokenize_knows htokens t hmem).isSentinel_eq_false
    simp [hk, Kind.isSentinel] at hsentinel

/-- The two tokens to blame in the line `x +`: the operation and the end of the line behind it. -/
def openSum : Rejection :=
  .misplaced ⟨⟨.binary, "+"⟩, 1, some ⟨2, 3, 1⟩⟩ ⟨⟨.finish, "END"⟩, -1, some ⟨3, 3, 1⟩⟩

theorem tokenize_openSum : arithmetic.tokenize "x +" =
    .ok [⟨⟨.identifier, "x"⟩, 0, some ⟨0, 1, 1⟩⟩, ⟨⟨.binary, "+"⟩, 1, some ⟨2, 3, 1⟩⟩] := by
  cbv

theorem parse_openSum : arithmetic.parse "x +" = .error (.engine (.rejected openSum)) := by
  rw [Grammar.parse, tokenize_openSum]
  rfl

/-- The carets stand below the operation and behind it. -/
theorem carets_point_openSum : ∃ carets, Shows carets (· ∈ [2, 3]) ∧
    openSum.error.format? "x +" false "<input>" =
      some ("\n".intercalate (openSum.error.layout "x +" 2 carets)) := by
  obtain ⟨tokens, -, herrors⟩ := carets_point arithmetic (by decide) "x +" (by decide)
  obtain ⟨e, he, -, -, -, offsets, first, carets, hoffsets, hfirst, -, hshows, -, hformat⟩ :=
    herrors _ parse_openSum
  obtain rfl : openSum.error = e := Report.parseError.inj he
  have heq : openSum.error.offsets? = some [2, 3] := by
    have hmarks : Span.allMarks? openSum.error.spans = some [2, 3] := by decide
    rw [ParseError.offsets?, hmarks, Option.map_some, List.mergeSort_of_pairwise (by decide)]
    rfl
  obtain rfl : [2, 3] = offsets := Option.some.inj (heq.symm.trans hoffsets)
  obtain rfl : 2 = first := by simpa using hfirst
  exact ⟨carets, hshows, hformat⟩

example : "\n".intercalate (openSum.error.layout "x +" 2 "  ^^") =
    "error[E0100]: syntax error: token <+> followed by <END>\n" ++
    " --> <input>:1:3\n" ++
    "  |\n" ++
    "1 | x +\n" ++
    "  |   ^^\n" ++
    "  |\n" ++
    "  = help: expected an operand" := by
  decide

end Fixity
