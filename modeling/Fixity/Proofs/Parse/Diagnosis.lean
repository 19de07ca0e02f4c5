import Fixity.Proofs.Checker.Refusal
import Fixity.Proofs.Parse.Failures

/-!
# Every line has a tree or a diagnostic

A line that has no tree fails with a parse error, and this can be laid out over the line: the tokens
to blame are tokens of the line or the sentinel of its end, so none of them ends before it begins.
The sentinel of the beginning has no place in the line, but it is never to blame.

## Main statements

- `mem_of_refused`: a refusal blames tokens that were fed
- `refused_or_lacks`: the two ways in which a line has no tree
- `exists_parseError`: a line without a tree has a parse error about its tokens or its end
- `Grammar.tree_or_diagnosis`: a line has a tree or a diagnostic
-/

namespace Fixity

open Checker

variable {g : Grammar} {line : String} {color : Bool}

/-! ## §1 Layouts -/

/-- A diagnostic about spans that do not end before they begin can be laid out. -/
theorem Diagnostic.exists_format? (d : Diagnostic) (h : ∀ s ∈ d.spans, s.start ≤ s.stop)
    (source : String) (color : Bool) : ∃ text, d.format? (some source) color = some text := by
  cases hfirst : firstSpan? d.spans with
  | none => simp [format?, lines?, hfirst]
  | some first =>
    obtain ⟨carets, hcarets⟩ := Span.exists_carets? h 0
    simp [format?, lines?, hfirst, excerpt?, hcarets]

/-- So can a parse error about tokens in their places. -/
theorem ParseError.exists_format? {e : ParseError} (h : ∀ t ∈ e.tokens, t.Spanned)
    (source : String) (color : Bool) (inputName : String) :
    ∃ text, e.format? source color inputName = some text := by
  refine (e.diagnostic inputName).exists_format? ?_ source color
  intro s hs
  obtain ⟨t, ht, hspan⟩ := List.mem_filterMap.mp hs
  obtain ⟨s', hspan', hle⟩ := h t ht
  obtain rfl : s' = s := Option.some.inj (hspan'.symm.trans hspan)
  exact hle

/-! ## §2 The tokens to blame -/

/-- A refusal blames the token that is refused, the one before it and the open brackets. -/
theorem mem_of_refuses {c : Checker} {t x : Token} {r : Rejection} (h : Refuses g c t r)
    (hx : x ∈ r.error.tokens) : x = t ∨ x = c.last ∧ x.kind ≠ .start ∨ x ∈ c.opened := by
  cases h with
  | misplaced =>
    obtain ⟨hx, hk⟩ := List.mem_filter.mp hx
    rcases List.mem_pair.mp hx with rfl | rfl
    · exact .inr (.inl ⟨rfl, of_decide_eq_true hk⟩)
    · exact .inl rfl
  | unopened => exact .inl (List.mem_singleton.mp hx)
  | mismatched _ ho =>
    rcases List.mem_pair.mp hx with rfl | rfl
    · exact .inr (.inr (by simp [ho]))
    · exact .inl rfl
  | unclosed _ ho =>
    obtain rfl := List.mem_singleton.mp hx
    exact .inr (.inr (by simp [ho]))

/-- If some token is refused, the tokens before it are accepted. -/
theorem exists_of_feed_eq_some {c : Checker} {ts : List Token} {r : Rejection}
    (h : (feed g c ts).2 = some r) :
    ∃ before t behind d, ts = before ++ t :: behind ∧ feed g c before = (d, none) ∧
      (d.check g t).2 = some r := by
  induction ts generalizing c with
  | nil => simp [feed] at h
  | cons t ts ih =>
    cases hcheck : c.check g t with
    | mk d refused =>
      cases refused with
      | some r' =>
        obtain rfl : r' = r := by simpa [feed, hcheck] using h
        exact ⟨[], t, ts, c, rfl, rfl, by rw [hcheck]⟩
      | none =>
        have hpass : Passes g c t d := check_eq_none_iff.mp hcheck
        rw [feed_cons_of_passes hpass] at h
        obtain ⟨before, u, behind, d', rfl, hbefore, hrefused⟩ := ih h
        exact ⟨t :: before, u, behind, d', rfl, (feed_cons_of_passes hpass before).trans hbefore,
          hrefused⟩

/-- **A refusal blames tokens that were fed.** -/
theorem mem_of_refused {ts : List Token} {r : Rejection} (h : (feed g {} ts).2 = some r) :
    ∀ x ∈ r.error.tokens, x ∈ ts := by
  obtain ⟨before, t, behind, c, rfl, hbefore, hrefused⟩ := exists_of_feed_eq_some h
  intro x hx
  rcases mem_of_refuses (refuses_of_check hrefused) hx with rfl | ⟨rfl, hk⟩ | hopen
  · simp
  · -- the last token is the sentinel of the beginning until others come
    rcases last_of_feed hbefore with hstart | hmem
    · exact absurd (congrArg (·.kind) hstart) hk
    · simp [hmem]
  · rcases mem_opened_of_feed hbefore x hopen with hnone | ⟨hmem, -⟩
    · simp at hnone
    · simp [hmem]

/-- A line without a tree is refused by the checker, or an operation of it lacks an operand. -/
theorem refused_or_lacks (few : g.classes.length < Grammar.bracketRank) {tokens : List Token}
    (htokens : g.tokenize line = .ok tokens) {f : Failure} (h : g.parse line = .error f) :
    (∃ e r, EndsLine tokens e ∧ (feed g {} (tokens ++ [e])).2 = some r ∧
      f = .engine (.rejected r)) ∨
    ∃ t ∈ tokens, ∃ found, f = .build (.missingOperands t found) := by
  have hknown := Grammar.tokenize_knows htokens
  have hspans := Grammar.tokenize_spans htokens
  have hsupports : ∀ t ∈ tokens, g.Supports t := fun t ht => (hknown t ht).supports few
  rw [Grammar.parse, htokens] at h
  by_cases haccepts : Accepts g tokens
  · -- the tree could not be built
    obtain ⟨postfixed, hrun⟩ := exists_runFresh (accepts_iff_derives.mp haccepts) hsupports hspans
    simp only [Grammar.parseTokens, hrun] at h
    cases hbuilt : Tree.ofPostfix? postfixed with
    | ok tree => simp [hbuilt, Except.mapError] at h
    | error b =>
      obtain rfl : .build b = f := by simpa [hbuilt, Except.mapError] using h
      obtain ⟨t, ht, found, -, -, rfl⟩ := exists_missingOperands hknown hspans hrun
        (List.Nodup.of_map _ (Grammar.nodup_indices htokens)) hbuilt
      exact .inr ⟨t, ht, found, rfl⟩
  · obtain ⟨e, r, hends, hrefused, hrun⟩ := runFresh_refused hsupports hspans haccepts
    obtain rfl : .engine (.rejected r) = f := by simpa [Grammar.parseTokens, hrun] using h
    exact .inl ⟨e, r, hends, hrefused, rfl⟩

/-- **A line without a tree has a parse error about its own tokens** or about its end. -/
theorem exists_parseError (few : g.classes.length < Grammar.bracketRank) {tokens : List Token}
    (htokens : g.tokenize line = .ok tokens) {f : Failure} (h : g.parse line = .error f) :
    ∃ e, f.report = .parseError e ∧ ∀ t ∈ e.tokens, t ∈ tokens ∨ EndsLine tokens t := by
  rcases refused_or_lacks few htokens h with ⟨e, r, hends, hrefused, rfl⟩ | ⟨t, ht, found, rfl⟩
  · refine ⟨r.error, rfl, fun t ht => ?_⟩
    refine (List.mem_append.mp (mem_of_refused hrefused t ht)).imp_right fun hmem => ?_
    rw [List.mem_singleton.mp hmem]
    exact hends
  · exact ⟨_, rfl, List.forall_mem_singleton.mpr (.inl ht)⟩

/-! ## §3 Diagnoses -/

namespace Grammar

/-- The diagnostic of a line that does not parse, laid out over this line alone. -/
def diagnosis? (g : Grammar) (color : Bool) (line : String) : Option String :=
  match g.parse line with
  | .ok _ => none
  | .error failure =>
    match failure.report with
    | .parseError e => e.format? line color "<input>"
    | _ => none

theorem diagnosis?_ok {tree : Tree} (h : g.parse line = .ok tree) :
    g.diagnosis? color line = none := by
  rw [diagnosis?, h]

theorem diagnosis?_error {f : Failure} {e : ParseError} (h : g.parse line = .error f)
    (he : f.report = .parseError e) :
    g.diagnosis? color line = e.format? line color "<input>" := by
  rw [diagnosis?, h]
  simp only [he]

/-- **Every line has a tree or a diagnostic**, and not both: what does not parse fails with a parse
error, and this can be laid out. -/
theorem tree_or_diagnosis (few : g.classes.length < bracketRank) (color : Bool) (line : String) :
    (∃ tree, g.parse line = .ok tree ∧ g.diagnosis? color line = none) ∨
      ∃ f e text, g.parse line = .error f ∧ f.report = .parseError e ∧
        e.format? line color "<input>" = some text ∧ g.diagnosis? color line = some text := by
  cases hparse : g.parse line with
  | ok tree => exact .inl ⟨tree, rfl, diagnosis?_ok hparse⟩
  | error f =>
    obtain ⟨tokens, htokens⟩ := g.exists_tokenize line
    obtain ⟨e, he, hblamed⟩ := exists_parseError few htokens hparse
    have hspans : ∀ t ∈ e.tokens, t.Spanned := fun t ht =>
      (hblamed t ht).elim (tokenize_spans htokens t) EndsLine.spanned
    obtain ⟨text, htext⟩ := ParseError.exists_format? hspans line color "<input>"
    exact .inr ⟨f, e, text, rfl, he, htext, (diagnosis?_error hparse he).trans htext⟩

end Grammar

end Fixity
