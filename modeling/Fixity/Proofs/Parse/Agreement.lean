import Fixity.Proofs.Engine.Agreement
import Fixity.Proofs.Grammar.Edits
import Fixity.Proofs.Parse.Soundness
import Fixity.Proofs.Pieces.Agreement
import Mathlib.Logic.Relation

/-!
# A line depends on the symbols that occur in it

Grammars that agree on a line give it the same tokens, in the same places, and put these in the same
postfix order or stop for the same reason. So they give the line the same tree, or the same report.

## Main statements

- `AgreeOn.parse`: a line is parsed in the same way under grammars that agree on it
- `parse_of_agreement`: so it is after any number of edits that the line does not see
-/

namespace Fixity

namespace Grammar

variable {g g' : Grammar} {line : String}

/-- **A line is parsed in the same way under grammars that agree on it**: to the same tree, or with
the same report. -/
theorem AgreeOn.parse (h : AgreeOn line g g') (few : g.classes.length < bracketRank)
    (few' : g'.classes.length < bracketRank) :
    (g.parse line).mapError (·.report) = (g'.parse line).mapError (·.report) := by
  obtain ⟨tokens, htokens⟩ := g.exists_tokenize line
  have htokens' : g'.tokenize line = .ok tokens := h.tokenize ▸ htokens
  have hread : ∀ t ∈ tokens, t.OccursIn line ∧ g.Knows t := fun t ht =>
    ⟨occursIn_tokenize htokens t ht, tokenize_knows htokens t ht⟩
  have hrun := runFresh_agree h few few' hread (tokenize_spans htokens)
  rw [Grammar.parse, Grammar.parse, htokens, htokens']
  simp only [parseTokens]
  cases hresult : (g.runFresh tokens).result with
  | error f =>
    cases hresult' : (g'.runFresh tokens).result with
    | error f' =>
      rw [hresult, hresult'] at hrun
      exact congrArg Except.error (Except.error.inj hrun)
    | ok postfixed => simp [hresult, hresult', Except.mapError] at hrun
  | ok postfixed =>
    cases hresult' : (g'.runFresh tokens).result with
    | error f => simp [hresult, hresult', Except.mapError] at hrun
    | ok postfixed' =>
      rw [hresult, hresult'] at hrun
      rw [Except.ok.inj hrun]

/-- Any number of edits leave agreement. -/
theorem agreeOn_of_edits (h : Relation.ReflTransGen (Edit line) g g') : AgreeOn line g g' := by
  induction h with
  | refl => exact .refl line g
  | tail _ hedit ih => exact ih.trans hedit.agreeOn

/-- **A parse depends on the symbols of the line only.** Two grammars give a line the same tree or
the same report if they agree on its symbols. In particular, they do if one is made of the other by
inserting classes, operations and bracket pairs that do not occur in the line, by putting the
operations of a class in another order, and by putting bracket pairs in another order. -/
theorem parse_of_agreement (few : g.classes.length < bracketRank)
    (few' : g'.classes.length < bracketRank)
    (h : AgreeOn line g g' ∨ Relation.ReflTransGen (Edit line) g g') :
    (g.parse line).mapError (·.report) = (g'.parse line).mapError (·.report) :=
  (h.elim id agreeOn_of_edits).parse few few'

/-- Arithmetic with powers, which bind tighter than all the others. -/
def withPowers : Grammar where
  classes := ⟨.right, [.ofKind .binary "^"]⟩ :: arithmetic.classes
  brackets := arithmetic.brackets
  wellFormed := ⟨by decide, by decide, by decide, by decide, by decide⟩

/-- A line without a power has the same parse, though all its operations have other ranks. -/
theorem parse_of_agreement_withPowers :
    (arithmetic.parse "- x * ( y )").mapError (·.report) =
      (withPowers.parse "- x * ( y )").mapError (·.report) := by
  refine parse_of_agreement (by decide) (by decide) (.inr (.single ?_))
  refine .insertClass [] arithmetic.classes ⟨.right, [.ofKind .binary "^"]⟩ rfl rfl rfl ?_
  intro t ht hoccurs
  obtain rfl := List.mem_singleton.mp ht
  exact absurd (Text.occurs_iff.mpr hoccurs) (by decide)

end Grammar

end Fixity
