import Fixity.Proofs.Tree.Postfix
import Fixity.Proofs.Tree.Reading

/-!
# Grafting a tree

A leaf of a tree gives way to another tree. In postfix order the token of the leaf gives way to
the postfix order of that tree, and nothing else changes.

## Main statements

- `postorder_graft_of_append`: the postfix order with the graft in its place
- `exists_postorder_of_lexemes`: tokens with the lexemes of a postfix order are one of such a tree
-/

namespace Fixity.Tree

/-! ## §1 In the place of a leaf -/

/-- The tree with another one in the place of the leaves that have this index. -/
def graft (t : Tree) (i : Int) (s : Tree) : Tree :=
  match t with
  | leaf t h => if t.index = i then s else leaf t h
  | unary t h a => unary t h (a.graft i s)
  | binary t h a b => binary t h (a.graft i s) (b.graft i s)

theorem postorder_graft (i : Int) (s t : Tree) :
    (t.graft i s).postorder =
      t.postorder.flatMap fun x => if x.arity = 0 ∧ x.index = i then s.postorder else [x] := by
  induction t with
  | leaf t h =>
    by_cases hi : t.index = i
    · simp [graft, postorder, h, hi]
    · simp [graft, postorder, hi]
  | unary t h a ih => simp [graft, postorder, h, ih]
  | binary t h a b iha ihb => simp [graft, postorder, h, iha, ihb]

/-- **The graft stands in the place of the leaf.** No other token has the index of the leaf. -/
theorem postorder_graft_of_append {s t : Tree} {x : Token} {before behind : List Token}
    (h : t.postorder = before ++ x :: behind) (hx : x.arity = 0)
    (hindices : (t.postorder.map (·.index)).Nodup) :
    (t.graft x.index s).postorder = before ++ (s.postorder ++ behind) := by
  rw [h, List.map_append, List.map_cons, List.nodup_middle, ← List.map_append,
    List.nodup_cons] at hindices
  have hstays : ∀ ys : List Token, (∀ y ∈ ys, y ∈ before ++ behind) →
      (ys.flatMap fun y => if y.arity = 0 ∧ y.index = x.index then s.postorder else [y]) = ys := by
    intro ys hys
    induction ys with
    | nil => rfl
    | cons y ys ih =>
      have hy : y.index ≠ x.index := by
        intro heq
        exact hindices.1 (heq ▸ List.mem_map_of_mem (hys y (by simp)))
      simp [hy, ih fun z hz => hys z (by simp [hz])]
  rw [postorder_graft, h, List.flatMap_append, List.flatMap_cons, if_pos ⟨hx, rfl⟩,
    hstays before fun y hy => by simp [hy], hstays behind fun y hy => by simp [hy]]

/-- Where the tokens of the graft stand does not matter to the lexemes. -/
theorem unplaced_graft {s s' : Tree} (h : s.unplaced = s'.unplaced) (i : Int) (t : Tree) :
    (t.graft i s).unplaced = (t.graft i s').unplaced := by
  induction t with
  | leaf t ht =>
    by_cases hi : t.index = i
    · simp [graft, hi, h]
    · simp [graft, hi]
  | unary t ht a ih => simp [graft, unplaced, ih]
  | binary t ht a b iha ihb => simp [graft, unplaced, iha, ihb]

/-- A token that takes nothing is the token of a leaf. -/
theorem leaf_mem_walk {t : Tree} {x : Token} (hx : x ∈ t.postorder) (harity : x.arity = 0) :
    .leaf x harity ∈ t.walk := by
  obtain ⟨n, hn, rfl⟩ := List.mem_map.mp (t.perm_postorder.mem_iff.mpr hx)
  cases n with
  | leaf x h => exact hn
  | unary x h a => simp [token, h] at harity
  | binary x h a b => simp [token, h] at harity

/-! ## §2 Trees with the same lexemes -/

/-- **Tokens with the lexemes of a postfix order are one** of the same tree, but for the places. -/
theorem exists_postorder_of_lexemes {t : Tree} {us : List Token}
    (h : us.map (·.toLexeme) = t.postorder.map (·.toLexeme)) :
    ∃ t' : Tree, t'.postorder = us ∧ t'.unplaced = t.unplaced := by
  have harity {u x : Token} {n : Nat} (hu : u.toLexeme = x.toLexeme) (hx : x.arity = n) :
      u.arity = n := by
    rw [hu, hx]
  induction t generalizing us with
  | leaf x hx =>
    obtain ⟨u, rfl, hu⟩ := List.map_eq_singleton_iff.mp h
    refine ⟨.leaf u (harity hu hx), rfl, ?_⟩
    simp only [unplaced, placed_eq_placed hu]
  | unary x hx a ih =>
    -- the token of the root comes last
    rw [postorder, List.map_append] at h
    obtain ⟨as, vs, rfl, has, hvs⟩ := List.map_eq_append_iff.mp h
    obtain ⟨u, rfl, hu⟩ := List.map_eq_singleton_iff.mp hvs
    obtain ⟨a', rfl, ha⟩ := ih has
    refine ⟨.unary u (harity hu hx) a', rfl, ?_⟩
    simp only [unplaced, placed_eq_placed hu, ha]
  | binary x hx a b iha ihb =>
    rw [postorder, List.map_append, List.map_append] at h
    obtain ⟨ws, vs, rfl, hws, hvs⟩ := List.map_eq_append_iff.mp h
    obtain ⟨as, bs, rfl, has, hbs⟩ := List.map_eq_append_iff.mp hws
    obtain ⟨u, rfl, hu⟩ := List.map_eq_singleton_iff.mp hvs
    obtain ⟨a', rfl, ha⟩ := iha has
    obtain ⟨b', rfl, hb⟩ := ihb hbs
    refine ⟨.binary u (harity hu hx) a' b', rfl, ?_⟩
    simp only [unplaced, placed_eq_placed hu, ha, hb]

end Fixity.Tree
