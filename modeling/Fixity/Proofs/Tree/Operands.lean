import Fixity.Proofs.Tree.Postfix
import Fixity.Proofs.Tree.Reading

/-!
# Counting operands

Every token takes as many finished trees as its arity from the stack and leaves one. So the number
of trees that are left in the end depends on the tokens only and not on their order. In an
expression the tokens take one less than they leave, so one tree is left. Tokens of nodes can be
put together unless at some place there are too few finished trees.

## Main statements

- `length_assemble`: how many trees are left
- `Derives.sum_arity`: what the tokens of an expression take and leave
- `exists_of_ofPostfix?_error`: a list that counts up to one tree is built unless an operand is
  missing
-/

namespace Fixity

/-! ## §1 The tokens of an expression -/

/-- How many finished trees the tokens take together. -/
def totalArity : List Token → Nat
  | [] => 0
  | t :: ts => t.arity + totalArity ts

theorem totalArity_append (ts us : List Token) :
    totalArity (ts ++ us) = totalArity ts + totalArity us := by
  induction ts with
  | nil => simp [totalArity]
  | cons t ts ih =>
    rw [List.cons_append, totalArity, totalArity, ih, Nat.add_assoc]

theorem totalArity_perm {ts us : List Token} (h : ts.Perm us) : totalArity ts = totalArity us := by
  induction h with
  | nil => rfl
  | cons t _ ih => rw [totalArity, totalArity, ih]
  | swap s t ts => exact Nat.add_left_comm t.arity s.arity (totalArity ts)
  | trans _ _ ih ih' => exact ih.trans ih'

/-- **An expression leaves one tree more than it takes**, closing brackets aside. -/
theorem Derives.sum_arity {g : Grammar} {phrase : Phrase} {ts : List Token}
    (h : Derives g phrase ts) :
    totalArity (ts.filter (·.kind ≠ .closing)) + 1 = (ts.filter (·.kind ≠ .closing)).length := by
  induction h with
  | single _ ih => exact ih
  | chain _ hb _ ihts ihus =>
    simp only [List.filter_append, totalArity_append, List.length_append] at ihts ihus ⊢
    rw [List.filter_cons_of_pos (by simp [hb]), totalArity, arity_binary hb, List.length_cons]
    omega
  | name hk => simp [hk, totalArity, arity_identifier hk]
  | signed hu _ ih =>
    rw [List.filter_cons_of_pos (by simp [hu]), totalArity, arity_unary hu, List.length_cons]
    omega
  | @bracketed ts o c hclose _ ih =>
    -- the bracket takes its content, and its partner does not count
    have hpartner : (ts ++ [c]).filter (·.kind ≠ .closing) = ts.filter (·.kind ≠ .closing) := by
      simp [hclose.kind_closing]
    have ho := hclose.kind_opening
    rw [List.filter_cons_of_pos (by simp [ho]), totalArity, arity_opening ho,
      List.length_cons, hpartner]
    omega

namespace Tree

/-! ## §2 What is left on the stack -/

/-- The number of finished trees afterwards. -/
theorem length_assemble {finished result : List Tree} {ts : List Token}
    (h : assemble finished ts = .ok result) :
    result.length + totalArity ts = finished.length + ts.length := by
  induction ts generalizing finished with
  | nil =>
    rw [assemble, Except.ok.injEq] at h
    simp [h, totalArity]
  | cons t ts ih =>
    obtain ⟨n, below, rfl, -, rfl, hrest⟩ := exists_of_assemble_cons h
    have hlater := ih hrest
    rw [totalArity, List.length_append, List.length_reverse, length_children]
    simp only [List.length_cons] at hlater ⊢
    omega

/-- With enough finished trees a token of a node is put above the last of them. -/
theorem exists_assemble_cons {t : Token} {finished : List Tree} (hhead : t.HeadsNode)
    (henough : ¬ finished.length < t.arity) :
    ∃ n, ∀ ts, assemble finished (t :: ts) = assemble (n :: finished.drop t.arity) ts := by
  obtain ⟨n, hn⟩ : ∃ n, node? t (finished.take t.arity).reverse = .ok n := by
    apply exists_node?_eq_ok_iff.mpr
    rw [List.length_reverse, List.length_take]
    omega
  refine ⟨n, ?_⟩
  intro ts
  rw [assemble, if_neg hhead, if_neg henough, hn]

/-- Tokens of nodes are put together up to the first that lacks an operand. -/
theorem exists_of_assemble_error {finished : List Tree} {ts : List Token} {f : BuildFault}
    (hheads : ∀ x ∈ ts, x.HeadsNode) (h : assemble finished ts = .error f) :
    ∃ before t behind found, ts = before ++ t :: behind ∧
      assemble finished before = .ok found ∧ found.length < t.arity ∧
        f = .missingOperands t found.length := by
  induction ts generalizing finished with
  | nil => simp [assemble] at h
  | cons t ts ih =>
    by_cases hfew : finished.length < t.arity
    · rw [assemble, if_neg (hheads t (by simp)), if_pos hfew] at h
      exact ⟨[], t, ts, finished, rfl, rfl, hfew, (Except.error.inj h).symm⟩
    · -- this token has its operands, so the one that lacks some comes later
      obtain ⟨n, hn⟩ := exists_assemble_cons (hheads t (by simp)) hfew
      rw [hn] at h
      obtain ⟨before, u, behind, found, rfl, hbefore, hlacks, rfl⟩ :=
        ih (fun x hx => hheads x (by simp [hx])) h
      exact ⟨t :: before, u, behind, found, rfl, by rw [hn, hbefore], hlacks, rfl⟩

/-- **Tokens of nodes that count up to one tree are built** unless one of them comes where there
are too few finished trees. -/
theorem exists_of_ofPostfix?_error {ts : List Token} {f : BuildFault}
    (hheads : ∀ x ∈ ts, x.HeadsNode) (hcount : totalArity ts + 1 = ts.length)
    (h : ofPostfix? ts = .error f) :
    ∃ before t behind found, ts = before ++ t :: behind ∧
      assemble [] before = .ok found ∧ found.length < t.arity ∧
        f = .missingOperands t found.length := by
  cases hbuilt : assemble [] ts with
  | error f' =>
    rw [ofPostfix?, hbuilt] at h
    obtain rfl : f' = f := Except.error.inj h
    exact exists_of_assemble_error hheads hbuilt
  | ok result =>
    -- one tree is left, so there is no failure
    have hlength := length_assemble hbuilt
    rw [List.length_nil] at hlength
    obtain ⟨t, rfl⟩ := List.length_eq_one_iff.mp (by omega : result.length = 1)
    simp [ofPostfix?, hbuilt] at h

end Tree

end Fixity
