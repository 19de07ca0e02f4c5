import Fixity.Proofs.Parse.Brackets
import Fixity.Proofs.Tree.Operands

/-!
# Why a line has no tree

Only two things go wrong. The checker refuses a token, or it accepts the line, and then an
operation that was sent out too early lacks an operand when the tree is built. No piece of a line
is lost, the stacks never fail by themselves, and what the tree is built of neither is empty nor
leaves anything over.

## Main statements

- `ne_opening_cons`: a bracket never comes out before its content
- `exists_missingOperands`: an accepted line without a tree has an operation without an operand
- `parse_failures`: all the ways in which a line has no tree
-/

namespace Fixity

open Checker

variable {g : Grammar} {line : String} {tokens : List Token}

section Runs

variable {postfixed : List Token} (hknown : ∀ t ∈ tokens, g.Knows t)
  (hspans : ∀ t ∈ tokens, t.Spanned) (h : (g.runFresh tokens).result = .ok postfixed)
include hknown hspans h

/-! ## §1 What comes out of a run -/

/-- The postfix order of an expression leaves one tree more than it takes. -/
theorem totalArity_runFresh : totalArity postfixed + 1 = postfixed.length := by
  have hperm := perm_runFresh hknown hspans h
  have haccepts := (exists_of_runFresh hknown hspans h).1
  rw [totalArity_perm hperm, hperm.length_eq]
  exact (accepts_iff_derives.mp haccepts).sum_arity

/-- What comes out of a run are tokens of the line, and all of them head nodes. -/
theorem headsNode_runFresh : ∀ t ∈ postfixed, t ∈ tokens ∧ t.HeadsNode := by
  intro t ht
  obtain ⟨hmem, hk⟩ := List.mem_filter.mp ((perm_runFresh hknown hspans h).mem_iff.mp ht)
  refine ⟨hmem, ?_⟩
  simpa [Token.HeadsNode, (hknown t hmem).isSentinel_eq_false] using hk

/-- A bracket comes out behind its content, so it is not the first. -/
theorem ne_opening_cons (hnodup : tokens.Nodup) {o : Token} (hk : o.kind = .opening)
    (behind : List Token) : postfixed ≠ o :: behind := by
  rintro rfl
  have hperm := perm_runFresh hknown hspans h
  have ho := (headsNode_runFresh hknown hspans h o (by simp)).1
  obtain ⟨content, hcontent⟩ := exists_encloses (exists_of_runFresh hknown hspans h).1 ho hk
  obtain ⟨-, inner, before, behind', hinner, hpost⟩ := exists_bracket hknown hspans h hcontent
  -- the bracket is there only once, so nothing comes out of its content
  have hnone : [] = before ++ inner :=
    append_eq_of_nodup (hperm.nodup_iff.mpr (hnodup.filter _)) hpost
  obtain ⟨-, rfl⟩ := List.append_eq_nil_iff.mp hnone.symm
  -- but the content leaves a tree
  have hcount := totalArity_runFresh (fun x hx => hknown x (hcontent.mem hx))
    (fun x hx => hspans x (hcontent.mem hx)) hinner
  simp at hcount

/-! ## §2 The cause of a failure -/

/-- If a line that the checker accepts has no tree, an operation lacks an operand. -/
theorem exists_missingOperands (hnodup : tokens.Nodup) {f : Tree.BuildFault}
    (hf : Tree.ofPostfix? postfixed = .error f) :
    ∃ t ∈ tokens, ∃ found, t.kind.isOperation = true ∧ found < t.arity ∧
      f = .missingOperands t found := by
  have hheads := headsNode_runFresh hknown hspans h
  obtain ⟨before, t, behind, found, rfl, hfound, hlacks, rfl⟩ :=
    Tree.exists_of_ofPostfix?_error (fun x hx => (hheads x hx).2)
      (totalArity_runFresh hknown hspans h) hf
  obtain ⟨ht, -⟩ := hheads t (by simp)
  refine ⟨t, ht, found.length, ?_, hlacks, rfl⟩
  cases hk : t.kind with
  | unary | binary => rfl
  | opening =>
    -- a bracket takes one tree, so there is none, and nothing comes before the bracket
    rw [arity_opening hk, Nat.lt_one_iff, List.length_eq_zero_iff] at hlacks
    rw [hlacks] at hfound
    obtain rfl : [] = before := by simpa using (Tree.postorder_of_assemble hfound).1
    exact absurd rfl (ne_opening_cons hknown hspans h hnodup hk behind)
  | identifier | closing | start | finish =>
    -- a token that takes nothing lacks nothing
    simp [Lexeme.arity, hk, Kind.arity] at hlacks

end Runs

/-- The checker has four reasons to refuse a token. -/
theorem category_error (r : Rejection) :
    r.error.category ∈ [ErrorCategory.misplaced, .unclosed, .unopened, .mismatched] := by
  cases r <;> simp [Rejection.error]

/-- **All the ways in which a line has no tree.** Either the checker refuses one of its tokens or
its end, or it accepts the line and some operation lacks an operand. There is no other failure. -/
theorem parse_failures (g : Grammar) (few : g.classes.length < Grammar.bracketRank)
    (line : String) :
    ∃ tokens, g.tokenize line = .ok tokens ∧ ∀ f, g.parse line = .error f →
      (∃ e r, e.toLexeme = Token.finish.toLexeme ∧ (feed g {} (tokens ++ [e])).2 = some r ∧
        f = .engine (.rejected r) ∧ f.report = .parseError r.error ∧
          r.error.category ∈ [ErrorCategory.misplaced, .unclosed, .unopened, .mismatched]) ∨
      (Accepts g tokens ∧ ∃ t ∈ tokens, ∃ found, t.kind.isOperation = true ∧ found < t.arity ∧
        f = .build (.missingOperands t found) ∧
          f.report = .parseError {
            category := .structural
            message := s!"<{t.symbol}> needs {t.arity} operand(s), found {found}"
            tokens := [t] }) := by
  obtain ⟨tokens, htokens⟩ := g.exists_tokenize line
  have hknown := Grammar.tokenize_knows htokens
  have hspans := Grammar.tokenize_spans htokens
  have hsupports : ∀ t ∈ tokens, g.Supports t := fun t ht => (hknown t ht).supports few
  have hnodup : tokens.Nodup := List.Nodup.of_map _ (Grammar.nodup_indices htokens)
  refine ⟨tokens, htokens, ?_⟩
  intro f hf
  rw [Grammar.parse, htokens] at hf
  by_cases haccepts : Accepts g tokens
  · right
    refine ⟨haccepts, ?_⟩
    -- there is a postfix order, so the tree could not be built
    obtain ⟨postfixed, hrun⟩ := exists_runFresh (accepts_iff_derives.mp haccepts) hsupports hspans
    cases hbuilt : Tree.ofPostfix? postfixed with
    | ok t => simp [Grammar.parseTokens, hrun, hbuilt, Except.mapError] at hf
    | error b =>
      obtain rfl : .build b = f := by
        simpa [Grammar.parseTokens, hrun, hbuilt, Except.mapError] using hf
      obtain ⟨t, ht, found, hk, hlacks, rfl⟩ :=
        exists_missingOperands hknown hspans hrun hnodup hbuilt
      exact ⟨t, ht, found, hk, hlacks, rfl, rfl⟩
  · left
    obtain ⟨e, r, he, hrefused, hrun⟩ := runFresh_rejected hsupports hspans haccepts
    obtain rfl : .engine (.rejected r) = f := by simpa [Grammar.parseTokens, hrun] using hf
    exact ⟨e, r, he, hrefused, rfl, rfl, category_error r⟩

/-- The tokens of the line `y * - z`. -/
def earlySign : List Token :=
  [⟨⟨.identifier, "y"⟩, 0, some ⟨0, 1, 1⟩⟩, ⟨⟨.binary, "*"⟩, 1, some ⟨2, 3, 1⟩⟩,
    ⟨⟨.unary, "-"⟩, 2, some ⟨4, 5, 1⟩⟩, ⟨⟨.identifier, "z"⟩, 3, some ⟨6, 7, 1⟩⟩]

theorem tokenize_earlySign : looseSign.tokenize "y * - z" = .ok earlySign := by
  cbv

/-- The sign sends out the product before its right operand has come. -/
theorem parse_failures_earlySign :
    Accepts looseSign earlySign ∧ ∃ t ∈ earlySign, t.symbol = "*" ∧
      looseSign.parse "y * - z" = .error (.build (.missingOperands t 1)) := by
  have hfailed : looseSign.parse "y * - z" =
      .error (.build (.missingOperands ⟨⟨.binary, "*"⟩, 1, some ⟨2, 3, 1⟩⟩ 1)) := by
    rw [Grammar.parse, tokenize_earlySign]
    rfl
  obtain ⟨tokens, htokens, hfailures⟩ := parse_failures looseSign (by decide) "y * - z"
  obtain rfl : earlySign = tokens := Except.ok.inj (tokenize_earlySign.symm.trans htokens)
  rcases hfailures _ hfailed with ⟨e, r, -, -, hengine, -⟩ | ⟨haccepts, t, ht, found, -, -, heq, -⟩
  · cases hengine
  · cases heq
    exact ⟨haccepts, _, ht, rfl, hfailed⟩

end Fixity
