import Fixity.ParseError
import Fixity.Proofs.Tree.Operands

/-!
# Building a tree from the top down

A tree is built forwards, with a stack of finished trees. It can as well be built backwards, by
recursion: the last token is the root, the trees below it are built from what is before, the
rightmost first, and each leaves the rest to the next one. The two look at the tokens from opposite
ends and give up at different places, but both succeed on exactly the postfix orders, and there
with the same tree.

## Main statements

- `descend_eq_some_iff`: the recursion takes the postfix orders of its trees off the stack
- `ofTop?_eq_some_iff`: what is built from the top is the tree with that postfix order
- `ofPostfix?_decodes`: what is built forwards, and that nothing else than a structural error is
  reported where nothing is built
-/

namespace Fixity

instance (t : Token) : Decidable t.HeadsNode :=
  inferInstanceAs (Decidable (¬ (t.kind = .closing ∨ t.kind.isSentinel = true)))

namespace Tree

/-! ## §1 The recursion -/

/-- Builds a number of trees from a stack of tokens, the top first. Beside the trees, in the order
in which they are built, stands what is left of the stack, and this is no more than was there. -/
def descend : (count : Nat) → (stack : List Token) →
    Option { built : List Tree × List Token // built.2.length ≤ stack.length }
  | 0, stack => some ⟨([], stack), Nat.le_refl _⟩
  | _ + 1, [] => none
  | count + 1, t :: stack =>
    if t.HeadsNode then
      match descend t.arity stack with
      | none => none
      | some ⟨(operands, below), hbelow⟩ =>
        -- the operands come from right to left
        match node? t operands.reverse with
        | .error _ => none
        | .ok n =>
          match descend count below with
          | none => none
          | some ⟨(others, rest), hrest⟩ =>
            some ⟨(n :: others, rest), Nat.le_succ_of_le (Nat.le_trans hrest hbelow)⟩
    else none
termination_by _ stack => stack.length
decreasing_by
  · exact Nat.lt_succ_self stack.length
  · exact Nat.lt_succ_of_le hbelow

/-- The tree that is built from the last token down, if this leaves no token. -/
def ofTop? (ts : List Token) : Option Tree :=
  match descend 1 ts.reverse with
  | some ⟨([t], []), _⟩ => some t
  | _ => none

/-! ## §2 What the recursion builds -/

/-- The stack is made of the postfix orders of so many trees, read backwards, on top of the rest. -/
structure Spells (count : Nat) (stack : List Token) (trees : List Tree) (rest : List Token) :
    Prop where
  length : trees.length = count
  heads : ∀ t ∈ trees, ∀ x ∈ t.postorder, x.HeadsNode
  stack : stack = trees.flatMap (·.postorder.reverse) ++ rest

theorem spells_zero_iff {stack rest : List Token} {trees : List Tree} :
    Spells 0 stack trees rest ↔ trees = [] ∧ rest = stack := by
  constructor
  · rintro ⟨hlength, -, rfl⟩
    obtain rfl := List.length_eq_zero_iff.mp hlength
    exact ⟨rfl, rfl⟩
  · rintro ⟨rfl, rfl⟩
    exact ⟨rfl, by simp, rfl⟩

theorem reverse_postorder (n : Tree) :
    n.postorder.reverse = n.token :: n.children.reverse.flatMap (·.postorder.reverse) := by
  rw [postorder_eq, List.reverse_append, List.reverse_flatMap]
  rfl

theorem not_spells_succ_nil {count : Nat} {trees : List Tree} {rest : List Token} :
    ¬ Spells (count + 1) [] trees rest := by
  rintro ⟨hlength, -, hstack⟩
  obtain ⟨n, others, rfl⟩ := List.exists_cons_of_length_eq_add_one hlength
  simp [reverse_postorder n] at hstack

/-- The top of the stack is the root of the first tree. Its operands come next, then the other
trees. -/
theorem spells_succ_cons_iff {count : Nat} {t : Token} {stack rest : List Token}
    {trees : List Tree} :
    Spells (count + 1) (t :: stack) trees rest ↔
      ∃ n others below, trees = n :: others ∧ n.token = t ∧ t.HeadsNode ∧
        Spells t.arity stack n.children.reverse below ∧ Spells count below others rest := by
  constructor
  · rintro ⟨hlength, hheads, hstack⟩
    obtain ⟨n, others, rfl⟩ := List.exists_cons_of_length_eq_add_one hlength
    rw [List.flatMap_cons, reverse_postorder, List.cons_append, List.cons_append,
      List.append_assoc] at hstack
    obtain ⟨rfl, rfl⟩ := List.cons.inj hstack
    have hn : ∀ x ∈ n.postorder, x.HeadsNode := hheads n (by simp)
    rw [postorder_eq] at hn
    refine ⟨n, others, _, rfl, rfl, hn _ (by simp), ⟨by simp, ?_, rfl⟩,
      ⟨by simpa using hlength, ?_, rfl⟩⟩
    · intro a ha x hx
      apply hn
      simp only [List.mem_append, List.mem_flatMap]
      exact .inl ⟨a, List.mem_reverse.mp ha, hx⟩
    · intro a ha
      exact hheads a (by simp [ha])
  · rintro ⟨n, others, below, rfl, rfl, hhead, ⟨-, hoperands, rfl⟩, ⟨hcount, hothers, rfl⟩⟩
    refine ⟨by simp [hcount], ?_, ?_⟩
    · intro a ha x hx
      rcases List.mem_cons.mp ha with rfl | ha
      · rw [postorder_eq, List.mem_append, List.mem_flatMap, List.mem_singleton] at hx
        rcases hx with ⟨b, hb, hx⟩ | rfl
        · exact hoperands b (List.mem_reverse.mpr hb) x hx
        · exact hhead
      · exact hothers a ha x hx
    · rw [List.flatMap_cons, reverse_postorder, List.cons_append, List.cons_append,
        List.append_assoc]

/-- The recursion at a root: its operands are built, then the other trees. -/
theorem descend_succ_cons_iff {count : Nat} {t : Token} {stack rest : List Token}
    {trees : List Tree} :
    (descend (count + 1) (t :: stack)).map (·.val) = some (trees, rest) ↔
      ∃ n others below, trees = n :: others ∧ n.token = t ∧ t.HeadsNode ∧
        (descend t.arity stack).map (·.val) = some (n.children.reverse, below) ∧
        (descend count below).map (·.val) = some (others, rest) := by
  rw [descend]
  by_cases hhead : t.HeadsNode
  · rw [if_pos hhead]
    cases hoperands : descend t.arity stack with
    | none => simp
    | some built =>
      obtain ⟨⟨operands, below⟩, hbelow⟩ := built
      dsimp only
      -- the node of the operands is the only tree with this root and these subtrees
      have hnode : ∀ n : Tree, n.token = t ∧ n.children.reverse = operands ↔
          node? t operands.reverse = .ok n := by
        intro n
        rw [node?_eq_ok_iff, ← List.reverse_eq_iff]
      cases hn : node? t operands.reverse with
      | error fault =>
        simp only [hn, reduceCtorEq, iff_false, not_and] at hnode
        simp only [Option.map_none, Option.map_some, reduceCtorEq, Option.some.injEq,
          Prod.mk.injEq, false_iff]
        rintro ⟨n, others, below, -, hroot, -, ⟨hchildren, -⟩, -⟩
        exact hnode n hroot hchildren.symm
      | ok n =>
        simp only [hn, Except.ok.injEq] at hnode
        dsimp only
        cases hothers : descend count below with
        | none =>
          simp only [Option.map_none, Option.map_some, reduceCtorEq, Option.some.injEq,
            Prod.mk.injEq, false_iff]
          rintro ⟨m, others, below', -, -, -, ⟨-, rfl⟩, hnone⟩
          simp [hothers] at hnone
        | some built =>
          obtain ⟨⟨others, rest'⟩, hrest⟩ := built
          obtain ⟨hroot, hchildren⟩ := (hnode n).mpr rfl
          simp only [Option.map_some, Option.some.injEq, Prod.mk.injEq]
          constructor
          · rintro ⟨rfl, rfl⟩
            exact ⟨n, others, below, rfl, hroot, hhead, ⟨hchildren.symm, rfl⟩, by simp [hothers]⟩
          · rintro ⟨m, others', below', rfl, hroot', -, ⟨hchildren', rfl⟩, hothers'⟩
            obtain rfl := (hnode m).mp ⟨hroot', hchildren'.symm⟩
            simpa [hothers] using hothers'
  · simp [hhead]

/-- **The recursion takes the postfix orders of its trees off the stack.** -/
theorem descend_eq_some_iff {count : Nat} {stack : List Token} {trees : List Tree}
    {rest : List Token} :
    (descend count stack).map (·.val) = some (trees, rest) ↔ Spells count stack trees rest := by
  match count, stack with
  | 0, stack =>
    rw [spells_zero_iff, descend]
    simp [eq_comm]
  | count + 1, [] => simp [descend, not_spells_succ_nil]
  | count + 1, t :: stack =>
    rw [descend_succ_cons_iff, spells_succ_cons_iff]
    have hstep : ∀ (n : Tree) (others : List Tree) (below : List Token),
        (descend t.arity stack).map (·.val) = some (n.children.reverse, below) ∧
          (descend count below).map (·.val) = some (others, rest) ↔
        Spells t.arity stack n.children.reverse below ∧ Spells count below others rest := by
      intro n others below
      rw [descend_eq_some_iff]
      apply and_congr_right
      intro hoperands
      -- the operands leave less than the whole stack
      have hshorter : below.length ≤ stack.length := by
        rw [hoperands.stack, List.length_append]
        omega
      rw [descend_eq_some_iff]
    simp only [hstep]
termination_by stack.length
decreasing_by all_goals (simp only [List.length_cons]; omega)

theorem ofTop?_eq_some_iff {ts : List Token} {t : Tree} :
    ofTop? ts = some t ↔ t.postorder = ts ∧ ∀ x ∈ ts, x.HeadsNode := by
  have hbuilt : ofTop? ts = some t ↔ (descend 1 ts.reverse).map (·.val) = some ([t], []) := by
    unfold ofTop?
    split
    · next u hrest hdescend => simp [hdescend]
    · next hother =>
      simp only [reduceCtorEq, false_iff, Option.map_eq_some_iff]
      rintro ⟨⟨built, hrest⟩, hdescend, rfl⟩
      exact hother t hrest hdescend
  have hspells : Spells 1 ts.reverse [t] [] ↔ t.postorder = ts ∧ ∀ x ∈ ts, x.HeadsNode := by
    constructor
    · rintro ⟨-, hheads, hstack⟩
      obtain rfl : ts = t.postorder := by simpa using hstack
      exact ⟨rfl, hheads t (by simp)⟩
    · rintro ⟨rfl, hheads⟩
      exact ⟨rfl, by simpa using hheads, by simp⟩
  rw [hbuilt, descend_eq_some_iff, hspells]

/-! ## §3 What is reported -/

/-- The forward pass makes no node with a wrong number of operands. -/
theorem assemble_ne_arity {finished : List Tree} {ts : List Token} {fault : ArityFault} :
    assemble finished ts ≠ .error (.arity fault) := by
  induction ts generalizing finished with
  | nil => simp [assemble]
  | cons t ts ih =>
    by_cases hhead : t.HeadsNode
    · by_cases hfew : finished.length < t.arity
      · rw [assemble, if_neg hhead, if_pos hfew]
        simp
      · obtain ⟨n, hn⟩ := exists_assemble_cons hhead hfew
        rw [hn]
        exact ih
    · rw [assemble, if_pos (not_not.mp hhead)]
      simp

theorem structural_of_ofPostfix? {ts : List Token} {f : BuildFault}
    (h : ofPostfix? ts = .error f) : ∃ e, f.report = .parseError e ∧ e.category = .structural := by
  cases f with
  | arity fault =>
    unfold ofPostfix? at h
    split at h
    · next f hassemble =>
      obtain rfl := Except.error.inj h
      exact absurd hassemble assemble_ne_arity
    · simp at h
    · simp at h
    · simp at h
  | unbuildable | missingOperands | empty | leftover => exact ⟨_, rfl, rfl⟩

/-! ## §4 Decoding -/

theorem forall_mem_walk_headsNode {t : Tree} :
    (∀ n ∈ t.walk, n.token.HeadsNode) ↔ ∀ x ∈ t.postorder, x.HeadsNode := by
  simp only [← (perm_postorder t).mem_iff, List.forall_mem_map]

/-- **Exactly the postfix orders are decoded.** The postfix order of a tree without closing brackets
and sentinels is built into this tree, any other list is reported as a structural error and
nothing else, and a tree that is built gives its tokens back. From the top down the same trees are
built. -/
theorem ofPostfix?_decodes (ts : List Token) :
    (∀ t : Tree, t.postorder = ts → (∀ n ∈ t.walk, n.token.HeadsNode) → ofPostfix? ts = .ok t) ∧
    ((¬ ∃ t : Tree, t.postorder = ts ∧ ∀ n ∈ t.walk, n.token.HeadsNode) →
      ∃ f e, ofPostfix? ts = .error f ∧ f.report = .parseError e ∧ e.category = .structural) ∧
    (∀ t, ofPostfix? ts = .ok t → t.postorder = ts) ∧
    ∀ t, ofTop? ts = some t ↔ ofPostfix? ts = .ok t := by
  have hiff : ∀ t : Tree, ofPostfix? ts = .ok t ↔
      t.postorder = ts ∧ ∀ n ∈ t.walk, n.token.HeadsNode := by
    intro t
    rw [ofPostfix?_eq_ok_iff, forall_mem_walk_headsNode]
    exact and_congr_right fun hpost => by rw [hpost]
  refine ⟨?_, ?_, ?_, ?_⟩
  · intro t hpost hheads
    exact (hiff t).mpr ⟨hpost, hheads⟩
  · intro hnone
    cases h : ofPostfix? ts with
    | ok t => exact absurd ⟨t, (hiff t).mp h⟩ hnone
    | error f =>
      obtain ⟨e, he, hcategory⟩ := structural_of_ofPostfix? h
      exact ⟨f, e, rfl, he, hcategory⟩
  · intro t h
    exact ((hiff t).mp h).1
  · intro t
    rw [ofTop?_eq_some_iff, ofPostfix?_eq_ok_iff]

/-- A sum is built from both ends; without its second operand it is reported. -/
theorem ofPostfix?_decodes_sum :
    (ofPostfix? [.ofKind .identifier "x", .ofKind .identifier "y", .ofKind .binary "+"] =
      .ok (binary (.ofKind .binary "+") rfl (leaf (.ofKind .identifier "x") rfl)
        (leaf (.ofKind .identifier "y") rfl))) ∧
    (ofTop? [.ofKind .identifier "x", .ofKind .identifier "y", .ofKind .binary "+"] =
      some (binary (.ofKind .binary "+") rfl (leaf (.ofKind .identifier "x") rfl)
        (leaf (.ofKind .identifier "y") rfl))) ∧
    ∃ f e, ofPostfix? [.ofKind .identifier "x", .ofKind .binary "+"] = .error f ∧
      f.report = .parseError e ∧ e.category = .structural := by
  obtain ⟨hbuild, -, -, htop⟩ :=
    ofPostfix?_decodes [.ofKind .identifier "x", .ofKind .identifier "y", .ofKind .binary "+"]
  have hsum := hbuild (binary (.ofKind .binary "+") rfl (leaf (.ofKind .identifier "x") rfl)
    (leaf (.ofKind .identifier "y") rfl)) rfl (forall_mem_walk_headsNode.mpr (by decide))
  refine ⟨hsum, (htop _).mpr hsum, ?_⟩
  apply (ofPostfix?_decodes _).2.1
  rintro ⟨t, hpost, hheads⟩
  have hbuilt := (ofPostfix?_decodes _).1 t hpost hheads
  have hreported : ofPostfix? [.ofKind .identifier "x", .ofKind .binary "+"] =
      .error (.missingOperands (.ofKind .binary "+") 1) := rfl
  simp [hreported] at hbuilt

end Tree

end Fixity
