import Fixity.Proofs.Tree.Reading
import Fixity.Tree.Print

/-!
# Trees with their operations in brackets

If every operation of a tree stands in a bracket of its own, precedence decides nothing: there is
no operation on the edge of any operand. The brackets can be taken off again, and nothing of the
tree is lost by that but the brackets that it had before.

## Main statements

- `respects_enclosed`: a tree with its operations in brackets respects precedence
- `unbracketed_eq_stripped`: taking the brackets off is a recursion that never fails
- `stripped_enclosed`: brackets that were put on are taken off again
-/

namespace Fixity

namespace Tree

/-! ## §1 Putting brackets on -/

/-- The tree in a bracket with this symbol. -/
def inBracket (symbol : String) (t : Tree) : Tree :=
  unary (.ofKind .opening symbol) rfl t

/-- The tree with every operation in a bracket of its own. -/
def enclosed (symbol : String) : Tree → Tree
  | leaf t h => leaf t h
  | unary t h a =>
    if t.kind = .opening then unary t h (a.enclosed symbol)
    else inBracket symbol (unary t h (a.enclosed symbol))
  | binary t h a b => inBracket symbol (binary t h (a.enclosed symbol) (b.enclosed symbol))

variable {t : Token} {a b : Tree} {symbol : String}

@[simp] theorem leftEdge_inBracket : (inBracket symbol a).leftEdge = [] := rfl

@[simp] theorem rightEdge_inBracket : (inBracket symbol a).rightEdge = [] := rfl

theorem enclosed_opening {h : t.arity = 1} (hk : t.kind = .opening) :
    (unary t h a).enclosed symbol = unary t h (a.enclosed symbol) := by
  rw [enclosed, if_pos hk]

theorem enclosed_unary {h : t.arity = 1} (hk : t.kind = .unary) :
    (unary t h a).enclosed symbol = inBracket symbol (unary t h (a.enclosed symbol)) := by
  rw [enclosed, if_neg (by simp [hk])]

/-! ## §2 Taking brackets off -/

/-- The tree without its bracket nodes. -/
def stripped : Tree → Tree
  | leaf t h => leaf t h
  | unary t h a => if t.kind = .opening then a.stripped else unary t h a.stripped
  | binary t h a b => binary t h a.stripped b.stripped

theorem unbracketed_eq_stripped (t : Tree) : t.unbracketed = .ok t.stripped := by
  rw [unbracketed, fold?_eq_foldM]
  induction t with
  | leaf t h =>
    have hk : t.kind ≠ .opening := by
      intro hk
      simp [arity_opening hk] at h
    rw [foldM, unwrap.eq_def]
    split <;> simp_all [token, stripped]
  | unary t h a ih =>
    rw [foldM, ih]
    rcases kind_of_arity_one h with hk | hk
    · simp [bind, Except.bind, unwrap, token, hk, node?, h, stripped]
    · simp [bind, Except.bind, unwrap, token, hk, stripped]
  | binary t h a b iha ihb =>
    rw [foldM, iha, ihb]
    simp [bind, Except.bind, unwrap, token, kind_of_arity_two h, node?, h, stripped]

@[simp] theorem stripped_inBracket : (inBracket symbol a).stripped = a.stripped := rfl

theorem stripped_enclosed (t : Tree) : (t.enclosed symbol).stripped = t.stripped := by
  induction t with
  | leaf t h => rfl
  | unary t h a ih =>
    rcases kind_of_arity_one h with hk | hk
    · rw [enclosed_unary hk, stripped_inBracket]
      simp [stripped, hk, ih]
    · rw [enclosed_opening hk]
      simp [stripped, hk, ih]
  | binary t h a b iha ihb => simp [enclosed, stripped, iha, ihb]

/-- Places do not matter to brackets. -/
theorem stripped_unplaced (t : Tree) : t.unplaced.stripped = t.stripped.unplaced := by
  induction t with
  | leaf t h => rfl
  | unary t h a ih =>
    rcases kind_of_arity_one h with hk | hk <;>
      simp [unplaced, stripped, Token.placed, hk, ih]
  | binary t h a b iha ihb => simp [unplaced, stripped, iha, ihb]

end Tree

/-! ## §3 Precedence and symbols -/

variable {g : Grammar} {symbol : String}

open Fixity.Tree

theorem leftEdge_enclosed (t : Tree) : (t.enclosed symbol).leftEdge = [] := by
  cases t with
  | leaf t h => rfl
  | unary t h a =>
    rcases kind_of_arity_one h with hk | hk
    · rw [enclosed_unary hk, leftEdge_inBracket]
    · simp [enclosed_opening hk, leftEdge, hk]
  | binary t h a b => rfl

theorem rightEdge_enclosed (t : Tree) : (t.enclosed symbol).rightEdge = [] := by
  cases t with
  | leaf t h => rfl
  | unary t h a =>
    rcases kind_of_arity_one h with hk | hk
    · rw [enclosed_unary hk, rightEdge_inBracket]
    · simp [enclosed_opening hk, rightEdge, hk]
  | binary t h a b => rfl

theorem respects_inBracket {t : Tree} : g.Respects (t.inBracket symbol) ↔ g.Respects t := by
  refine respects_unary.trans (and_iff_right ?_)
  -- a bracket is no prefix operation
  intro hk
  cases hk

/-- **In brackets precedence decides nothing.** -/
theorem respects_enclosed (t : Tree) : g.Respects (t.enclosed symbol) := by
  induction t with
  | leaf t h => exact respects_leaf
  | unary t h a ih =>
    have hat : g.RespectsAt (.unary t h (a.enclosed symbol)) := by
      simp [Grammar.RespectsAt, leftEdge_enclosed]
    rcases kind_of_arity_one h with hk | hk
    · rw [enclosed_unary hk]
      exact respects_inBracket.mpr (respects_unary.mpr ⟨hat, ih⟩)
    · rw [enclosed_opening hk]
      exact respects_unary.mpr ⟨hat, ih⟩
  | binary t h a b iha ihb =>
    have hat : g.RespectsAt (.binary t h (a.enclosed symbol) (b.enclosed symbol)) := by
      simp [Grammar.RespectsAt, leftEdge_enclosed, rightEdge_enclosed]
    exact respects_inBracket.mpr (respects_binary.mpr ⟨hat, iha, ihb⟩)

/-- With the bracket all tokens of the tree can be printed, if they could be printed before. -/
theorem spells_enclosed {t : Tree} (hsymbol : g.Spells (.ofKind .opening symbol))
    (h : ∀ n ∈ t.walk, g.Spells n.token) : ∀ n ∈ (t.enclosed symbol).walk, g.Spells n.token := by
  induction t with
  | leaf t harity => exact h
  | unary t harity a ih =>
    obtain ⟨hspell, ha⟩ := forall_mem_walk_unary.mp h
    have hoperation : ∀ n ∈ (unary t harity (a.enclosed symbol)).walk, g.Spells n.token :=
      forall_mem_walk_unary.mpr ⟨hspell, ih ha⟩
    rcases kind_of_arity_one harity with hk | hk
    · rw [enclosed_unary hk]
      exact forall_mem_walk_unary.mpr ⟨hsymbol, hoperation⟩
    · rw [enclosed_opening hk]
      exact hoperation
  | binary t harity a b iha ihb =>
    obtain ⟨hspell, ha, hb⟩ := forall_mem_walk_binary.mp h
    have hoperation : ∀ n ∈ (binary t harity (a.enclosed symbol) (b.enclosed symbol)).walk,
        g.Spells n.token := forall_mem_walk_binary.mpr ⟨hspell, iha ha, ihb hb⟩
    exact forall_mem_walk_unary.mpr ⟨hsymbol, hoperation⟩

end Fixity
