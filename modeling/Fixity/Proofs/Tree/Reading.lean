import Fixity.Proofs.Checker.Expression
import Fixity.Tree.Traversal

/-!
# Reading a tree in the order of the line

A tree is read from left to right: an infix operation between its operands, a prefix operation
before its operand, a bracket before its content with its partner behind it. Which trees a line
can be read as depends on the edges of their subtrees: what stands next to an operation must
not be drawn to it more strongly than to the operation it belongs to.

## Main statements

- `Reads.inorder`: the tokens of a line that reads as a tree are those of the tree in order
- `exists_reads`: tokens with the right lexemes read as the tree, each in its own place
- `Reads.derives`: what reads as a tree is an expression
-/

namespace Fixity

variable {g : Grammar}

/-! ## §1 The order of the line -/

namespace Tree

/-- The tokens of a tree from left to right. The partner of a bracket comes from the grammar. -/
def inorder (g : Grammar) : Tree → List Token
  | leaf t _ => [t]
  | unary t _ a =>
    if t.kind = .opening then t :: (a.inorder g ++ (g.closingFor? t).toList)
    else t :: a.inorder g
  | binary t _ a b => a.inorder g ++ t :: b.inorder g

/-! ## §2 Edges -/

/-- The operations on the way down from the root along the last operands, up to an identifier
or a bracket. -/
def rightEdge : Tree → List Token
  | leaf _ _ => []
  | unary t _ a => if t.kind = .opening then [] else t :: a.rightEdge
  | binary t _ _ b => t :: b.rightEdge

/-- The operations on the way down from the root along the first operands, up to an identifier,
a bracket or a prefix operation, which is the last one. -/
def leftEdge : Tree → List Token
  | leaf _ _ => []
  | unary t _ _ => if t.kind = .opening then [] else [t]
  | binary t _ a _ => t :: a.leftEdge

end Tree

/-- At this node precedence is respected: to the left of an infix operation everything binds
tighter than the operation, and to the right of an operation nothing binds less tight. -/
def Grammar.RespectsAt (g : Grammar) : Tree → Prop
  | .leaf _ _ => True
  | .unary t _ a => t.kind = .unary → ∀ q ∈ a.leftEdge, g.bindsTighter t q = .ok false
  | .binary t _ a b =>
    (∀ p ∈ a.rightEdge, g.bindsTighter p t = .ok true) ∧
      ∀ q ∈ b.leftEdge, g.bindsTighter t q = .ok false

/-- Precedence is respected at every node. -/
def Grammar.Respects (g : Grammar) (t : Tree) : Prop :=
  ∀ n ∈ t.walk, g.RespectsAt n

instance (g : Grammar) (t : Tree) : Decidable (g.RespectsAt t) := by
  cases t <;> rw [Grammar.RespectsAt] <;> infer_instance

section Respects

variable {t : Token} {a b : Tree}

@[simp] theorem respects_leaf {h : t.arity = 0} : g.Respects (.leaf t h) :=
  Tree.forall_mem_walk_leaf.mpr trivial

theorem respects_unary {h : t.arity = 1} :
    g.Respects (.unary t h a) ↔ g.RespectsAt (.unary t h a) ∧ g.Respects a :=
  Tree.forall_mem_walk_unary

theorem respects_binary {h : t.arity = 2} :
    g.Respects (.binary t h a b) ↔
      g.RespectsAt (.binary t h a b) ∧ g.Respects a ∧ g.Respects b :=
  Tree.forall_mem_walk_binary

end Respects

/-! ## §3 Lines that read as a tree -/

/-- The tokens of a line, in their order, read as a tree. Whichever token closes a bracket, it
is no part of the tree. -/
inductive Reads (g : Grammar) : Tree → List Token → Prop where
  | name {t : Token} (h : t.arity = 0) : t.kind = .identifier → Reads g (.leaf t h) [t]
  | signed {t : Token} {a : Tree} {ts : List Token} (h : t.arity = 1) :
      t.kind = .unary → Reads g a ts → Reads g (.unary t h a) (t :: ts)
  | bracketed {t c : Token} {a : Tree} {ts : List Token} (h : t.arity = 1) :
      g.Closes t c → Reads g a ts → Reads g (.unary t h a) (t :: (ts ++ [c]))
  | chain {t : Token} {a b : Tree} {ts us : List Token} (h : t.arity = 2) :
      t.kind = .binary → Reads g a ts → Reads g b us → Reads g (.binary t h a b) (ts ++ t :: us)

theorem arity_identifier {t : Token} (h : t.kind = .identifier) : t.arity = 0 := by
  simp [Lexeme.arity, h, Kind.arity]

theorem arity_unary {t : Token} (h : t.kind = .unary) : t.arity = 1 := by
  simp [Lexeme.arity, h, Kind.arity]

theorem arity_opening {t : Token} (h : t.kind = .opening) : t.arity = 1 := by
  simp [Lexeme.arity, h, Kind.arity]

theorem arity_binary {t : Token} (h : t.kind = .binary) : t.arity = 2 := by
  simp [Lexeme.arity, h, Kind.arity]

theorem kind_of_arity_one {t : Token} (h : t.arity = 1) : t.kind = .unary ∨ t.kind = .opening := by
  cases hk : t.kind <;> simp [Lexeme.arity, hk, Kind.arity] at h ⊢

theorem kind_of_arity_two {t : Token} (h : t.arity = 2) : t.kind = .binary := by
  cases hk : t.kind <;> simp [Lexeme.arity, hk, Kind.arity] at h ⊢

/-- The same lexeme, and the same place too unless it is a closing bracket. -/
def Token.Matches (s t : Token) : Prop :=
  s.toLexeme = t.toLexeme ∧ (t.kind ≠ .closing → s = t)

theorem Token.Matches.refl (t : Token) : t.Matches t :=
  ⟨rfl, fun _ => rfl⟩

theorem Reads.inorder {t : Tree} {ts : List Token} (h : Reads g t ts) :
    List.Forall₂ Token.Matches (t.inorder g) ts := by
  induction h with
  | name => exact .cons (.refl _) .nil
  | signed h hk _ ih =>
    rw [Tree.inorder, if_neg (by simp [hk])]
    exact .cons (.refl _) ih
  | @bracketed t c a ts h hclose _ ih =>
    -- the partner that the grammar gives has the same lexeme, but no place
    obtain ⟨k, hk, hkc⟩ := Option.map_eq_some_iff.mp hclose
    have hpartner : k.Matches c := ⟨hkc, fun hne => absurd hclose.kind_closing hne⟩
    rw [Tree.inorder, if_pos hclose.kind_opening, hk]
    exact .cons (.refl _) (List.rel_append ih (.cons hpartner .nil))
  | chain h hk _ _ iha ihb =>
    rw [Tree.inorder]
    exact List.rel_append iha (.cons (.refl _) ihb)

theorem Reads.derives {t : Tree} {ts : List Token} (h : Reads g t ts) :
    Derives g .expression ts := by
  induction h with
  | name _ hk => exact .single (.name hk)
  | signed _ hk _ ih => exact ih.signed_expression hk
  | bracketed _ hclose _ ih => exact .single (.bracketed hclose ih)
  | chain _ hk _ _ iha ihb => exact iha.append_expression hk ihb

theorem Reads.mem_leftEdge {t : Tree} {ts : List Token} (h : Reads g t ts) :
    ∀ q ∈ t.leftEdge, q ∈ ts ∧ q.kind.isOperation = true := by
  induction h with
  | name => simp [Tree.leftEdge]
  | signed _ hk => simp [Tree.leftEdge, hk, Kind.isOperation]
  | bracketed _ hclose => simp [Tree.leftEdge, hclose.kind_opening]
  | chain _ hk _ _ iha =>
    intro q hq
    rcases List.mem_cons.mp hq with rfl | hq
    · simp [hk, Kind.isOperation]
    · exact ⟨List.mem_append_left _ (iha q hq).1, (iha q hq).2⟩

theorem Reads.mem_rightEdge {t : Tree} {ts : List Token} (h : Reads g t ts) :
    ∀ q ∈ t.rightEdge, q ∈ ts ∧ q.kind.isOperation = true := by
  induction h with
  | name => simp [Tree.rightEdge]
  | signed _ hk _ ih =>
    intro q hq
    rw [Tree.rightEdge, if_neg (by simp [hk])] at hq
    rcases List.mem_cons.mp hq with rfl | hq
    · simp [hk, Kind.isOperation]
    · exact ⟨List.mem_cons_of_mem _ (ih q hq).1, (ih q hq).2⟩
  | bracketed _ hclose => simp [Tree.rightEdge, hclose.kind_opening]
  | chain _ hk _ _ _ ihb =>
    intro q hq
    rcases List.mem_cons.mp hq with rfl | hq
    · simp [hk, Kind.isOperation]
    · exact ⟨by simp [(ihb q hq).1], (ihb q hq).2⟩

/-! ## §4 Trees in their places -/

theorem placed_eq_placed {s t : Token} (h : s.toLexeme = t.toLexeme) (i : Int)
    (p : Option Span) : s.placed i p = t.placed i p := by
  cases s
  cases t
  simpa [Token.placed] using h

theorem toLexeme_ofKind {t : Token} {k : Kind} (hk : t.kind = k) :
    (Token.ofKind k t.symbol).toLexeme = t.toLexeme := by
  rw [← hk]
  rfl

/-- The token can be printed and read back: an identifier that is not taken apart, or an
operation or an opening bracket of the grammar. -/
def Grammar.Spells (g : Grammar) (t : Token) : Prop :=
  if t.kind = .identifier then
    IsSymbol t.symbol ∧ ∀ s ∈ g.tokens, ¬ s.symbol.toList <:+: t.symbol.toList
  else t.kind ≠ .closing ∧ g.Registers t

instance (g : Grammar) (t : Token) : Decidable (g.Spells t) := by
  have (s : Token) : Decidable (s.symbol.toList <:+: t.symbol.toList) :=
    decidable_of_iff _ Text.occurs_iff
  unfold Grammar.Spells
  infer_instance

theorem Grammar.Spells.kind_of_leaf {t : Token} (h : g.Spells t) (harity : t.arity = 0) :
    t.kind = .identifier := by
  by_contra hne
  rw [Grammar.Spells, if_neg hne] at h
  -- registered tokens without operands are closing brackets
  rcases h.2.kind with hk | hk | hk
  · cases hkind : t.kind <;> simp [Lexeme.arity, Kind.arity, Kind.isOperation, hkind] at harity hk
  · simp [arity_opening hk] at harity
  · exact h.1 hk

theorem Grammar.Spells.exists_partner {t : Token} (h : g.Spells t) (hk : t.kind = .opening) :
    ∃ c, g.closingFor? t = some c ∧ g.Closes t c := by
  rw [Grammar.Spells, if_neg (by simp [hk])] at h
  obtain ⟨b, hb, hbt⟩ := h.2.exists_opening hk
  have hclosing : g.closingFor? t = some b.closing := by
    rw [← hbt]
    exact Grammar.closingFor?_eq hb
  exact ⟨b.closing, hclosing, by rw [Grammar.Closes, hclosing, Option.map_some]⟩

/-- Tokens with the lexemes of a tree in order read as the tree, but for the places. -/
theorem exists_reads {t : Tree} (hs : ∀ n ∈ t.walk, g.Spells n.token) {ts : List Token}
    (h : ts.map (·.toLexeme) = (t.inorder g).map (·.toLexeme)) :
    ∃ t', Reads g t' ts ∧ t'.unplaced = t.unplaced := by
  induction t generalizing ts with
  | leaf t harity =>
    obtain ⟨u, rfl, hu⟩ := List.map_eq_singleton_iff.mp h
    have hspell : g.Spells t := Tree.forall_mem_walk_leaf.mp hs
    have hk : u.kind = .identifier := by
      rw [hu]
      exact hspell.kind_of_leaf harity
    refine ⟨.leaf u (arity_identifier hk), .name _ hk, ?_⟩
    simp only [Tree.unplaced, placed_eq_placed hu]
  | unary t harity a ih =>
    obtain ⟨(hspell : g.Spells t), hsa⟩ := Tree.forall_mem_walk_unary.mp hs
    rcases kind_of_arity_one harity with hk | hk
    · -- a prefix operation takes the first token and its operand the others
      rw [Tree.inorder, if_neg (by simp [hk]), List.map_cons] at h
      obtain ⟨u, us, rfl, hu, hus⟩ := List.map_eq_cons_iff.mp h
      obtain ⟨a', ha', heq⟩ := ih hsa hus
      have hku : u.kind = .unary := by rw [hu, hk]
      refine ⟨.unary u (arity_unary hku) a', .signed _ hku ha', ?_⟩
      simp only [Tree.unplaced, placed_eq_placed hu, heq]
    · -- a bracket takes the last token too, which has the lexeme of its partner
      obtain ⟨c, hc, hclose⟩ := hspell.exists_partner hk
      rw [Tree.inorder, if_pos hk, hc, List.map_cons, List.map_append] at h
      obtain ⟨u, vs, rfl, hu, hvs⟩ := List.map_eq_cons_iff.mp h
      obtain ⟨us, ds, rfl, hus, hds⟩ := List.map_eq_append_iff.mp hvs
      obtain ⟨d, rfl, hd⟩ := List.map_eq_singleton_iff.mp hds
      obtain ⟨a', ha', heq⟩ := ih hsa hus
      have hclose' : g.Closes u d := by rwa [hu, hd]
      refine ⟨.unary u (arity_opening hclose'.kind_opening) a', .bracketed _ hclose' ha', ?_⟩
      simp only [Tree.unplaced, placed_eq_placed hu, heq]
  | binary t harity a b iha ihb =>
    obtain ⟨-, hsa, hsb⟩ := Tree.forall_mem_walk_binary.mp hs
    -- the lexemes of the tree split the tokens at the operation
    rw [Tree.inorder, List.map_append, List.map_cons] at h
    obtain ⟨us, ws, rfl, hus, hws⟩ := List.map_eq_append_iff.mp h
    obtain ⟨u, vs, rfl, hu, hvs⟩ := List.map_eq_cons_iff.mp hws
    obtain ⟨a', ha', heqa⟩ := iha hsa hus
    obtain ⟨b', hb', heqb⟩ := ihb hsb hvs
    have hku : u.kind = .binary := by rw [hu, kind_of_arity_two harity]
    refine ⟨.binary u (arity_binary hku) a' b', .chain _ hku ha' hb', ?_⟩
    simp only [Tree.unplaced, placed_eq_placed hu, heqa, heqb]

/-! ## §5 Places do not matter to precedence -/

theorem leftEdge_unplaced (t : Tree) :
    t.unplaced.leftEdge.map (·.toLexeme) = t.leftEdge.map (·.toLexeme) := by
  induction t with
  | leaf => rfl
  | unary t _ a _ =>
    by_cases hk : t.kind = .opening <;> simp [Tree.unplaced, Tree.leftEdge, hk, Token.placed]
  | binary t _ a b iha _ => simp [Tree.unplaced, Tree.leftEdge, iha]

theorem rightEdge_unplaced (t : Tree) :
    t.unplaced.rightEdge.map (·.toLexeme) = t.rightEdge.map (·.toLexeme) := by
  induction t with
  | leaf => rfl
  | unary t _ a ih =>
    by_cases hk : t.kind = .opening
    · simp [Tree.unplaced, Tree.rightEdge, hk, Token.placed]
    · simpa [Tree.unplaced, Tree.rightEdge, hk, Token.placed] using ih
  | binary t _ a b _ ihb => simp [Tree.unplaced, Tree.rightEdge, ihb]

/-- What holds of the lexemes of one list holds of those of the other. -/
theorem forall_lexeme_iff {ss ts : List Token} (h : ss.map (·.toLexeme) = ts.map (·.toLexeme))
    (p : Lexeme → Prop) : (∀ s ∈ ss, p s) ↔ ∀ t ∈ ts, p t := by
  have hmap : ∀ us : List Token, (∀ u ∈ us, p u) ↔ ∀ x ∈ us.map (·.toLexeme), p x := by simp
  rw [hmap ss, hmap ts, h]

theorem respects_unplaced {t : Tree} : g.Respects t.unplaced ↔ g.Respects t := by
  induction t with
  | leaf => exact iff_of_true respects_leaf respects_leaf
  | unary t h a ih =>
    -- the condition at the node is about lexemes only
    have hplaced := respects_unary (g := g) (t := t.placed (-1) none) (h := h) (a := a.unplaced)
    have hedge := forall_lexeme_iff (leftEdge_unplaced a) fun q => g.bindsTighter t q = .ok false
    refine hplaced.trans (Iff.trans ?_ respects_unary.symm)
    simp only [Grammar.RespectsAt, ih, Token.toLexeme_placed, hedge]
  | binary t h a b iha ihb =>
    have hplaced := respects_binary (g := g) (t := t.placed (-1) none) (h := h) (a := a.unplaced)
      (b := b.unplaced)
    have hright := forall_lexeme_iff (rightEdge_unplaced a) fun p => g.bindsTighter p t = .ok true
    have hleft := forall_lexeme_iff (leftEdge_unplaced b) fun q => g.bindsTighter t q = .ok false
    refine hplaced.trans (Iff.trans ?_ respects_binary.symm)
    simp only [Grammar.RespectsAt, iha, ihb, Token.toLexeme_placed, hright, hleft]

end Fixity
