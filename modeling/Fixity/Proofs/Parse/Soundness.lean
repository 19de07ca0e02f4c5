import Fixity.Proofs.Engine.Simulation
import Fixity.Proofs.Tree.Attach

/-!
# Soundness of parsing

A line is prefix-safe if no prefix operation stands directly behind an operation that binds
tighter. Of such a line parsing returns the reading that respects precedence, so it fails exactly
where the checker does, and the tree spells out the tokens of the line in their order.

## Main statements

- `parse_sound`: prefix-safe lines are parsed exactly if the checker accepts them, and in order
- `parse_respects`: precedence is respected at every node
-/

namespace Fixity

open Checker

variable {g : Grammar} {line : String} {tokens : List Token}

/-! ## §1 A small grammar and a line -/

/-- Signs, products and sums, the tightest first, and round brackets. -/
def arithmetic : Grammar where
  classes := [⟨.right, [.ofKind .unary "-"]⟩, ⟨.left, [.ofKind .binary "*"]⟩,
    ⟨.left, [.ofKind .binary "+"]⟩]
  brackets := [⟨.ofKind .opening "(", .ofKind .closing ")"⟩]
  wellFormed := ⟨by decide, by decide, by decide, by decide, by decide⟩

/-- The tokens of the line `- x * ( y )`. -/
def signedProduct : List Token :=
  [⟨⟨.unary, "-"⟩, 0, some ⟨0, 1, 1⟩⟩, ⟨⟨.identifier, "x"⟩, 1, some ⟨2, 3, 1⟩⟩,
    ⟨⟨.binary, "*"⟩, 2, some ⟨4, 5, 1⟩⟩, ⟨⟨.opening, "("⟩, 3, some ⟨6, 7, 1⟩⟩,
    ⟨⟨.identifier, "y"⟩, 4, some ⟨8, 9, 1⟩⟩, ⟨⟨.closing, ")"⟩, 5, some ⟨10, 11, 1⟩⟩]

/-- The tree of that line. -/
def signedProductTree : Tree :=
  .binary ⟨⟨.binary, "*"⟩, 2, some ⟨4, 5, 1⟩⟩ rfl
    (.unary ⟨⟨.unary, "-"⟩, 0, some ⟨0, 1, 1⟩⟩ rfl
      (.leaf ⟨⟨.identifier, "x"⟩, 1, some ⟨2, 3, 1⟩⟩ rfl))
    (.unary ⟨⟨.opening, "("⟩, 3, some ⟨6, 7, 1⟩⟩ rfl
      (.leaf ⟨⟨.identifier, "y"⟩, 4, some ⟨8, 9, 1⟩⟩ rfl))

theorem tokenize_signedProduct : arithmetic.tokenize "- x * ( y )" = .ok signedProduct := by
  cbv

theorem parse_signedProduct : arithmetic.parse "- x * ( y )" = .ok signedProductTree := by
  rw [Grammar.parse, tokenize_signedProduct]
  rfl

/-! ## §2 Accepted and refused lines -/

/-- **A prefix-safe line that the checker accepts is parsed** to the reading that respects
precedence. -/
theorem exists_parse_eq (few : g.classes.length < Grammar.bracketRank)
    (htokens : g.tokenize line = .ok tokens) (hsafe : g.PrefixSafe tokens)
    (haccepts : Accepts g tokens) :
    ∃ t, g.parse line = .ok t ∧ Reads g t tokens ∧ g.Respects t := by
  have hknown := Grammar.tokenize_knows htokens
  -- the reading exists before the engine is asked, which then follows it
  obtain ⟨t, hreads, hrespects, -⟩ :=
    exists_respectful_reading (accepts_iff_derives.mp haccepts) hsafe hknown
  refine ⟨t, ?_, hreads, hrespects⟩
  rw [Grammar.parse, htokens]
  exact parseTokens_of_respects hreads hrespects (fun x hx => (hknown x hx).supports few)
    (Grammar.tokenize_spans htokens)

/-- A line that the checker refuses does not come to a tree. -/
theorem parse_rejected (few : g.classes.length < Grammar.bracketRank)
    (htokens : g.tokenize line = .ok tokens) (h : ¬ Accepts g tokens) :
    ∃ r, g.parse line = .error (.engine (.rejected r)) := by
  have hknown := Grammar.tokenize_knows htokens
  obtain ⟨-, r, -, -, hr⟩ := runFresh_rejected (fun x hx => (hknown x hx).supports few)
    (Grammar.tokenize_spans htokens) h
  refine ⟨r, ?_⟩
  rw [Grammar.parse, htokens]
  simp only [Grammar.parseTokens, hr]

theorem accepts_of_parse (few : g.classes.length < Grammar.bracketRank)
    (htokens : g.tokenize line = .ok tokens) {t : Tree} (ht : g.parse line = .ok t) :
    Accepts g tokens := by
  by_contra hrefused
  obtain ⟨r, hr⟩ := parse_rejected few htokens hrefused
  simp [ht] at hr

/-- What is parsed from a prefix-safe line is its reading that respects precedence. -/
theorem reads_of_parse (few : g.classes.length < Grammar.bracketRank)
    (htokens : g.tokenize line = .ok tokens) (hsafe : g.PrefixSafe tokens) {t : Tree}
    (ht : g.parse line = .ok t) : Reads g t tokens ∧ g.Respects t := by
  have haccepts := accepts_of_parse few htokens ht
  -- parsing has one result only
  obtain ⟨t', ht', hreads, hrespects⟩ := exists_parse_eq few htokens hsafe haccepts
  obtain rfl : t' = t := Except.ok.inj (ht'.symm.trans ht)
  exact ⟨hreads, hrespects⟩

/-! ## §3 Structural failures -/

/-- The report is a parse error about operands that are missing or left over. -/
def Failure.IsStructural (f : Failure) : Prop :=
  ∃ e, f.report = .parseError e ∧ e.category = .structural

/-- The checker knows other reasons to refuse a token. -/
theorem not_isStructural_rejected (r : Rejection) :
    ¬ (Failure.engine (.rejected r)).IsStructural := by
  intro ⟨e, he, hcategory⟩
  obtain rfl : r.error = e := Report.parseError.inj he
  cases r <;> simp [Rejection.error] at hcategory

theorem prefixSafe_of_no_prefix (h : ∀ t ∈ g.operations, t.kind ≠ .unary)
    (hknown : ∀ t ∈ tokens, g.Knows t) : g.PrefixSafe tokens := by
  -- there is nothing to be in the tightest class
  have htightest : g.PrefixTightest := by
    intro t ht hk
    exact absurd hk (h t ht)
  exact htightest.prefixSafe hknown

/-! ## §4 What parsing returns -/

/-- **Soundness of parsing.** Every line has tokens. If they are prefix-safe, there is a tree
exactly if the checker accepts the tokens and the end of the line, and in order the tree is the
list of the tokens, each in its own place but for closing brackets. Such a line never fails for
its structure, nor does any line if no prefix operation of the grammar can be in the way. -/
theorem parse_sound (g : Grammar) (few : g.classes.length < Grammar.bracketRank)
    (line : String) :
    ∃ tokens, g.tokenize line = .ok tokens ∧
      (g.PrefixSafe tokens →
        ((∃ t, g.parse line = .ok t) ↔ Accepts g tokens) ∧
        ∀ t, g.parse line = .ok t → List.Forall₂ Token.Matches (t.inorder g) tokens) ∧
      (g.PrefixSafe tokens ∨ (∀ u ∈ g.operations, u.kind ≠ .unary) ∨ g.PrefixTightest →
        ∀ f, g.parse line = .error f → ¬ f.IsStructural) := by
  obtain ⟨tokens, htokens⟩ := g.exists_tokenize line
  have hknown := Grammar.tokenize_knows htokens
  refine ⟨tokens, htokens, ?_, ?_⟩
  · intro hsafe
    constructor
    · constructor
      · intro ⟨t, ht⟩
        exact accepts_of_parse few htokens ht
      · intro haccepts
        obtain ⟨t, ht, -⟩ := exists_parse_eq few htokens hsafe haccepts
        exact ⟨t, ht⟩
    · intro t ht
      exact (reads_of_parse few htokens hsafe ht).1.inorder
  · intro hprefix f hf
    have hsafe : g.PrefixSafe tokens := by
      rcases hprefix with hsafe | hnone | htightest
      · exact hsafe
      · exact prefixSafe_of_no_prefix hnone hknown
      · exact htightest.prefixSafe hknown
    by_cases haccepts : Accepts g tokens
    · obtain ⟨t, ht, -⟩ := exists_parse_eq few htokens hsafe haccepts
      simp [ht] at hf
    · -- only the checker is left as the cause
      obtain ⟨r, hr⟩ := parse_rejected few htokens haccepts
      obtain rfl : .engine (.rejected r) = f := Except.error.inj (hr.symm.trans hf)
      exact not_isStructural_rejected r

theorem parse_sound_signedProduct :
    Accepts arithmetic signedProduct ∧
      List.Forall₂ Token.Matches (signedProductTree.inorder arithmetic) signedProduct := by
  obtain ⟨tokens, htokens, hsafe, -⟩ := parse_sound arithmetic (by decide) "- x * ( y )"
  obtain rfl : signedProduct = tokens := Except.ok.inj (tokenize_signedProduct.symm.trans htokens)
  obtain ⟨haccepts, hinorder⟩ := hsafe (by decide)
  exact ⟨haccepts.mp ⟨_, parse_signedProduct⟩, hinorder _ parse_signedProduct⟩

/-- **Precedence is respected at every node** of the tree of a prefix-safe line. -/
theorem parse_respects (few : g.classes.length < Grammar.bracketRank)
    (htokens : g.tokenize line = .ok tokens) (hsafe : g.PrefixSafe tokens) {t : Tree}
    (ht : g.parse line = .ok t) : g.Respects t :=
  (reads_of_parse few htokens hsafe ht).2

theorem parse_respects_signedProduct : arithmetic.Respects signedProductTree :=
  parse_respects (by decide) tokenize_signedProduct (by decide) parse_signedProduct

end Fixity
