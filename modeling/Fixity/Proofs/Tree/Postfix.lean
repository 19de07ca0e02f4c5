import Fixity.Tree.Postfix
import Fixity.Tree.Traversal
import Mathlib.Data.List.Permutation

/-!
# Postfix order determines the tree

Building a tree undoes putting its tokens in postfix order, whatever lies below on the stack of
finished trees. The other way round the finished trees spell out all tokens so far, so a tree
that was built has the given postfix order. No tree in postfix order is the end of another one.

## Main statements

- `ofPostfix?_eq_ok_iff`: the tree that is built is the one with that postfix order
- `postorder_append_inj`: what ends with a tree ends with no other tree
- `exists_postorder_of_mem`: the postfix order of a subtree is a part of that of the tree
-/

namespace Fixity

/-- Neither a closing bracket nor a sentinel. -/
def Token.HeadsNode (t : Token) : Prop :=
  ¬ (t.kind = .closing ∨ t.kind.isSentinel = true)

namespace Tree

/-! ## §1 Building one node -/

theorem postorder_eq (n : Tree) :
    n.postorder = n.children.flatMap postorder ++ [n.token] := by
  cases n with
  | leaf t h => rfl
  | unary t h a => simp [postorder, children, token]
  | binary t h a b => simp [postorder, children, token]

/-- A token takes its subtrees from the stack and puts the node there. -/
theorem assemble_token {n : Tree} (h : n.token.HeadsNode) (finished : List Tree)
    (ts : List Token) :
    assemble (n.children.reverse ++ finished) (n.token :: ts) = assemble (n :: finished) ts := by
  -- the token takes as many subtrees as the node has
  have hlength : n.children.reverse.length = n.token.arity := by
    rw [List.length_reverse, length_children]
  have henough : ¬ (n.children.reverse ++ finished).length < n.token.arity := by
    rw [List.length_append, hlength]
    omega
  have htake : (n.children.reverse ++ finished).take n.token.arity = n.children.reverse := by
    rw [← hlength, List.take_left]
  have hdrop : (n.children.reverse ++ finished).drop n.token.arity = finished := by
    rw [← hlength, List.drop_left]
  rw [assemble, if_neg h, if_neg henough, htake, hdrop, List.reverse_reverse,
    node?_token_children]

/-- A token that is built has its subtrees on top of the stack. -/
theorem exists_of_assemble_cons {finished result : List Tree} {t : Token} {ts : List Token}
    (h : assemble finished (t :: ts) = .ok result) :
    ∃ n below, n.token = t ∧ t.HeadsNode ∧ finished = n.children.reverse ++ below ∧
      assemble (n :: below) ts = .ok result := by
  rw [assemble] at h
  -- the token heads a node, there are enough subtrees, and the node is one
  split at h
  · simp at h
  · next hhead =>
    split at h
    · simp at h
    · next henough =>
      split at h
      · simp at h
      · next n hn =>
        obtain ⟨hroot, hchildren⟩ := node?_eq_ok_iff.mp hn
        refine ⟨n, finished.drop t.arity, hroot, hhead, ?_, h⟩
        rw [hchildren, List.reverse_reverse, List.take_append_drop]

/-! ## §2 Building and putting in order undo each other -/

/-- **A tree in postfix order is built on top of the finished trees**, which stay. -/
theorem assemble_postorder {t : Tree} (h : ∀ x ∈ t.postorder, x.HeadsNode)
    (finished : List Tree) (ts : List Token) :
    assemble finished (t.postorder ++ ts) = assemble (t :: finished) ts := by
  induction t generalizing finished ts with
  | leaf t harity => exact assemble_token (n := .leaf t harity) (h t (by simp [postorder])) _ _
  | unary t harity a ih =>
    rw [postorder, List.append_assoc, ih fun x hx => h x (by simp [postorder, hx])]
    exact assemble_token (n := .unary t harity a) (h t (by simp [postorder])) _ _
  | binary t harity a b iha ihb =>
    rw [postorder, List.append_assoc, List.append_assoc,
      iha fun x hx => h x (by simp [postorder, hx]), ihb fun x hx => h x (by simp [postorder, hx])]
    exact assemble_token (n := .binary t harity a b) (h t (by simp [postorder])) _ _

/-- The finished trees, the first one first, spell out the tokens. -/
theorem postorder_of_assemble {finished result : List Tree} {ts : List Token}
    (h : assemble finished ts = .ok result) :
    result.reverse.flatMap postorder = finished.reverse.flatMap postorder ++ ts ∧
      ∀ x ∈ ts, x.HeadsNode := by
  induction ts generalizing finished with
  | nil =>
    rw [assemble, Except.ok.injEq] at h
    simp [h]
  | cons t ts ih =>
    -- the new node spells out its subtrees and then the token
    obtain ⟨n, below, rfl, hhead, rfl, hrest⟩ := exists_of_assemble_cons h
    obtain ⟨hspelled, hheads⟩ := ih hrest
    refine ⟨?_, by simpa [hhead] using hheads⟩
    rw [hspelled]
    simp [postorder_eq n]

/-- **Postfix order determines the tree**, and every list of tokens that is built is one. -/
theorem ofPostfix?_eq_ok_iff {ts : List Token} {t : Tree} :
    ofPostfix? ts = .ok t ↔ t.postorder = ts ∧ ∀ x ∈ ts, x.HeadsNode := by
  constructor
  · intro h
    have hbuilt : assemble [] ts = .ok [t] := by
      rw [ofPostfix?] at h
      split at h <;> simp_all
    simpa using postorder_of_assemble hbuilt
  · rintro ⟨rfl, h⟩
    have hbuilt := assemble_postorder h [] []
    rw [List.append_nil] at hbuilt
    rw [ofPostfix?, hbuilt]
    rfl

/-! ## §3 Parts of the postfix order -/

/-- The end of a list in postfix order is the root, and what is before it belongs to the
subtrees. -/
theorem append_postorder_eq_append {t u : Tree} {ts us : List Token}
    (h : ts ++ t.postorder = us ++ u.postorder) :
    t.token = u.token ∧
      ts ++ t.children.flatMap postorder = us ++ u.children.flatMap postorder := by
  rw [postorder_eq t, postorder_eq u, ← List.append_assoc, ← List.append_assoc] at h
  obtain ⟨hbefore, hroot⟩ := List.append_inj' h rfl
  exact ⟨List.singleton_inj.mp hroot, hbefore⟩

/-- **No tree in postfix order is the end of another one.** -/
theorem postorder_append_inj {t u : Tree} {ts us : List Token}
    (h : ts ++ t.postorder = us ++ u.postorder) : t = u ∧ ts = us := by
  -- the roots are the same token, which has one number of operands only
  induction t generalizing u ts us with
  | leaf t harity =>
    obtain ⟨rfl, hbefore⟩ := append_postorder_eq_append h
    cases u with
    | leaf u harity' => exact ⟨rfl, by simpa [children] using hbefore⟩
    | unary u harity' a' => simp [token, harity'] at harity
    | binary u harity' a' b' => simp [token, harity'] at harity
  | unary t harity a ih =>
    obtain ⟨rfl, hbefore⟩ := append_postorder_eq_append h
    cases u with
    | leaf u harity' => simp [token, harity'] at harity
    | unary u harity' a' =>
      obtain ⟨rfl, rfl⟩ := ih (u := a') (by simpa [children] using hbefore)
      exact ⟨rfl, rfl⟩
    | binary u harity' a' b' => simp [token, harity'] at harity
  | binary t harity a b iha ihb =>
    obtain ⟨rfl, hbefore⟩ := append_postorder_eq_append h
    cases u with
    | leaf u harity' => simp [token, harity'] at harity
    | unary u harity' a' => simp [token, harity'] at harity
    | binary u harity' a' b' =>
      -- the right subtrees end the lists, then the left ones do
      simp only [children, List.flatMap_cons, List.flatMap_nil, List.append_nil,
        ← List.append_assoc] at hbefore
      obtain ⟨rfl, hleft⟩ := ihb hbefore
      obtain ⟨rfl, rfl⟩ := iha hleft
      exact ⟨rfl, rfl⟩

/-- Every subtree has its place in the postfix order of the tree. -/
theorem exists_postorder_of_mem {t n : Tree} (h : n ∈ t.walk) :
    ∃ before behind, t.postorder = before ++ n.postorder ++ behind := by
  rw [walk_eq_preorder] at h
  induction t with
  | leaf t harity =>
    rw [preorder, List.mem_singleton] at h
    exact ⟨[], [], by simp [h]⟩
  | unary t harity a ih =>
    rw [preorder, List.mem_cons] at h
    rcases h with rfl | h
    · exact ⟨[], [], by simp⟩
    · obtain ⟨before, behind, ha⟩ := ih h
      exact ⟨before, behind ++ [t], by simp [postorder, ha]⟩
  | binary t harity a b iha ihb =>
    rw [preorder, List.mem_cons, List.mem_append] at h
    rcases h with rfl | h | h
    · exact ⟨[], [], by simp⟩
    · obtain ⟨before, behind, ha⟩ := iha h
      exact ⟨before, behind ++ b.postorder ++ [t], by simp [postorder, ha]⟩
    · obtain ⟨before, behind, hb⟩ := ihb h
      exact ⟨a.postorder ++ before, behind ++ [t], by simp [postorder, hb]⟩

/-- The postfix order loses no token of the tree. -/
theorem perm_postorder (t : Tree) : (t.walk.map token).Perm t.postorder := by
  rw [walk_eq_preorder]
  induction t with
  | leaf t harity => exact .refl _
  | unary t harity a ih =>
    exact (ih.cons t).trans (List.perm_append_singleton t _).symm
  | binary t harity a b iha ihb =>
    rw [preorder, List.map_cons, List.map_append]
    exact ((iha.append ihb).cons t).trans (List.perm_append_singleton t _).symm

end Tree

end Fixity
