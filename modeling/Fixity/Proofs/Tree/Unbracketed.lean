import Fixity.Proofs.Tree.Enclosed

/-!
# Trees without their brackets

A walk meets every token before the tokens below it. Each token has one number of operands, so the
tokens in this order determine the tree, and no tree in this order is the beginning of another one.
Taking the brackets off a tree takes the opening brackets out of its walk and leaves every other
token where it was. So two trees are the same without their brackets if and only if their walks are.

## Main statements

- `walk_append_inj`: what begins with the walk of a tree begins with that of no other tree
- `unplaced_eq_iff`: the lexemes of a walk determine the tree, but for the places
- `walk_stripped`: without its brackets a tree keeps its other tokens, in their order
- `unbracketed_removes`: what taking the brackets off does to a tree
-/

namespace Fixity.Tree

/-! ## §1 A walk determines the tree -/

theorem map_token_walk (n : Tree) :
    n.walk.map token = n.token :: n.children.flatMap fun a => a.walk.map token := by
  cases n <;> simp [walk_eq_preorder, preorder, children, token]

/-- At the beginning of a list stands the root, and behind it the subtrees. -/
theorem map_token_walk_append {t u : Tree} {ts us : List Token}
    (h : t.walk.map token ++ ts = u.walk.map token ++ us) :
    t.token = u.token ∧
      (t.children.flatMap fun a => a.walk.map token) ++ ts =
        (u.children.flatMap fun a => a.walk.map token) ++ us := by
  rw [map_token_walk t, map_token_walk u] at h
  exact List.cons.inj h

/-- **No tree in the order of a walk is the beginning of another one.** -/
theorem walk_append_inj {t u : Tree} {ts us : List Token}
    (h : t.walk.map token ++ ts = u.walk.map token ++ us) : t = u ∧ ts = us := by
  -- the roots are the same token, which has one number of operands only
  induction t generalizing u ts us with
  | leaf t harity =>
    obtain ⟨rfl, hbehind⟩ := map_token_walk_append h
    cases u with
    | leaf u harity' => exact ⟨rfl, by simpa [children] using hbehind⟩
    | unary u harity' a' => simp [token, harity'] at harity
    | binary u harity' a' b' => simp [token, harity'] at harity
  | unary t harity a ih =>
    obtain ⟨rfl, hbehind⟩ := map_token_walk_append h
    cases u with
    | leaf u harity' => simp [token, harity'] at harity
    | unary u harity' a' =>
      obtain ⟨rfl, hrest⟩ := ih (u := a') (by simpa [children] using hbehind)
      exact ⟨rfl, hrest⟩
    | binary u harity' a' b' => simp [token, harity'] at harity
  | binary t harity a b iha ihb =>
    obtain ⟨rfl, hbehind⟩ := map_token_walk_append h
    cases u with
    | leaf u harity' => simp [token, harity'] at harity
    | unary u harity' a' => simp [token, harity'] at harity
    | binary u harity' a' b' =>
      -- the left subtrees come first, then the right ones do
      simp only [children, List.flatMap_cons, List.flatMap_nil, List.append_nil,
        List.append_assoc] at hbehind
      obtain ⟨rfl, hright⟩ := iha hbehind
      obtain ⟨rfl, hrest⟩ := ihb hright
      exact ⟨rfl, hrest⟩

theorem walk_inj {t u : Tree} (h : t.walk.map token = u.walk.map token) : t = u := by
  have happend : t.walk.map token ++ [] = u.walk.map token ++ [] := by rw [h]
  exact (walk_append_inj happend).1

/-! ## §2 Walks and places -/

theorem walk_unplaced (t : Tree) :
    t.unplaced.walk.map token = (t.walk.map token).map (·.placed (-1) none) := by
  simp only [walk_eq_preorder]
  induction t with
  | leaf t h => rfl
  | unary t h a ih => simpa [unplaced, preorder, token] using ih
  | binary t h a b iha ihb => simpa [unplaced, preorder, token] using congrArg₂ _ iha ihb

/-- **The lexemes of a walk determine the tree**, but for the places. -/
theorem unplaced_eq_iff {t u : Tree} :
    t.unplaced = u.unplaced ↔
      (t.walk.map token).map (·.toLexeme) = (u.walk.map token).map (·.toLexeme) := by
  have hlexeme (x : Token) : (x.placed (-1) none).toLexeme = x.toLexeme := rfl
  have hplaced (x : Token) : x.placed (-1) none = ⟨x.toLexeme, -1, none⟩ := rfl
  constructor
  · intro h
    have hwalk : t.unplaced.walk.map token = u.unplaced.walk.map token := by rw [h]
    rw [walk_unplaced, walk_unplaced] at hwalk
    simpa [Function.comp_def] using congrArg (List.map (·.toLexeme)) hwalk
  · intro h
    apply walk_inj
    rw [walk_unplaced, walk_unplaced]
    -- a token without a place is its lexeme
    simpa [Function.comp_def, hplaced] using congrArg (List.map fun x => Token.mk x (-1) none) h

/-! ## §3 Walks and brackets -/

/-- The tokens that a walk meets, the opening brackets aside. -/
def bareWalk (t : Tree) : List Token :=
  (t.walk.map token).filter (·.kind ≠ .opening)

theorem mem_bareWalk {t : Tree} {x : Token} (h : x ∈ t.bareWalk) : x.kind ≠ .opening := by
  simpa using (List.mem_filter.mp h).2

theorem bareWalk_leaf {t : Token} {h : t.arity = 0} : (leaf t h).bareWalk = [t] := by
  have hk : t.kind ≠ .opening := by
    intro hk
    simp [arity_opening hk] at h
  simp [bareWalk, walk_eq_preorder, preorder, token, hk]

theorem bareWalk_unary {t : Token} {h : t.arity = 1} {a : Tree} :
    (unary t h a).bareWalk = if t.kind = .opening then a.bareWalk else t :: a.bareWalk := by
  by_cases hk : t.kind = .opening <;> simp [bareWalk, walk_eq_preorder, preorder, token, hk]

theorem bareWalk_binary {t : Token} {h : t.arity = 2} {a b : Tree} :
    (binary t h a b).bareWalk = t :: (a.bareWalk ++ b.bareWalk) := by
  simp [bareWalk, walk_eq_preorder, preorder, token, kind_of_arity_two h]

/-- **Without its brackets a tree keeps its other tokens**, in their order and in their places. -/
theorem walk_stripped (t : Tree) : t.stripped.walk.map token = t.bareWalk := by
  induction t with
  | leaf t h =>
    rw [bareWalk_leaf]
    simp [stripped, walk_eq_preorder, preorder, token]
  | unary t h a ih =>
    rw [bareWalk_unary]
    by_cases hk : t.kind = .opening
    · simpa [stripped, hk] using ih
    · rw [if_neg hk, ← ih]
      simp [stripped, hk, walk_eq_preorder, preorder, token]
  | binary t h a b iha ihb =>
    rw [bareWalk_binary, ← iha, ← ihb]
    simp [stripped, walk_eq_preorder, preorder, token]

theorem stripped_eq_iff {t u : Tree} : t.stripped = u.stripped ↔ t.bareWalk = u.bareWalk := by
  rw [← walk_stripped, ← walk_stripped]
  exact ⟨fun h => by rw [h], walk_inj⟩

theorem unplaced_stripped_eq_iff {t u : Tree} :
    t.stripped.unplaced = u.stripped.unplaced ↔
      t.bareWalk.map (·.toLexeme) = u.bareWalk.map (·.toLexeme) := by
  rw [unplaced_eq_iff, walk_stripped, walk_stripped]

theorem kind_ne_opening_of_mem_stripped {t n : Tree} (h : n ∈ t.stripped.walk) :
    n.token.kind ≠ .opening := by
  have hmem : n.token ∈ t.stripped.walk.map token := List.mem_map_of_mem h
  rw [walk_stripped] at hmem
  exact mem_bareWalk hmem

/-- A tree without brackets has none to lose. -/
theorem stripped_stripped (t : Tree) : t.stripped.stripped = t.stripped := by
  have hkept : t.stripped.bareWalk = t.stripped.walk.map token := by
    rw [bareWalk, walk_stripped, List.filter_eq_self]
    intro x hx
    simpa using mem_bareWalk hx
  apply walk_inj
  rw [walk_stripped, hkept]

/-- **Taking the brackets off removes the brackets and nothing else.** It never fails. What comes out
has no bracket node, and a walk over it meets the tokens that a walk over the tree meets, in the same
order and each in its place, without the opening brackets. To do it again changes nothing. Two trees
become the same, with or without the places of their tokens, if and only if their walks without the
opening brackets are the same. -/
theorem unbracketed_removes (t : Tree) :
    ∃ bare, t.unbracketed = .ok bare ∧
      (∀ n ∈ bare.walk, n.token.kind ≠ .opening) ∧
      bare.walk.map token = t.bareWalk ∧
      bare.unbracketed = .ok bare ∧
      ∀ u : Tree, ∃ bare', u.unbracketed = .ok bare' ∧
        (bare = bare' ↔ t.bareWalk = u.bareWalk) ∧
        (bare.unplaced = bare'.unplaced ↔
          t.bareWalk.map (·.toLexeme) = u.bareWalk.map (·.toLexeme)) := by
  refine ⟨t.stripped, unbracketed_eq_stripped t, ?_, walk_stripped t, ?_, ?_⟩
  · intro n hn
    exact kind_ne_opening_of_mem_stripped hn
  · rw [unbracketed_eq_stripped, stripped_stripped]
  · intro u
    exact ⟨u.stripped, unbracketed_eq_stripped u, stripped_eq_iff, unplaced_stripped_eq_iff⟩

end Fixity.Tree
