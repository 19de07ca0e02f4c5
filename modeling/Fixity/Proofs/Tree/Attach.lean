import Fixity.Proofs.Grammar.Ranks
import Fixity.Proofs.Pieces.Tokens
import Fixity.Proofs.Tree.Reading
import Mathlib.Data.List.Chain

/-!
# Every expression has a reading that respects precedence

The reading grows from left to right. The next infix operation takes as its left operand the
largest subtree on the right edge whose own right edge binds tighter throughout, and stands in
its place. A prefix operation must be left alone by the operation before it: where that one
binds tighter, the grammar leaves no tree that respects precedence.

## Main statements

- `exists_attach`: how the reading grows by an infix operation and its right operand
- `exists_respectful_reading`: the reading of an expression
-/

namespace Fixity

variable {g : Grammar}

/-! ## §1 Prefix operations that are left alone -/

/-- Wherever a prefix operation comes directly after an operation, that one does not bind
tighter. -/
def Grammar.PrefixSafe (g : Grammar) (ts : List Token) : Prop :=
  ts.IsChain fun o u : Token =>
    o.kind.isOperation = true → u.kind = .unary → g.bindsTighter o u = .ok false

instance (g : Grammar) (ts : List Token) : Decidable (g.PrefixSafe ts) :=
  inferInstanceAs (Decidable (List.IsChain _ ts))

/-- In the tightest class, if that associates to the right, prefix operations are left alone. -/
theorem Grammar.PrefixTightest.prefixSafe (h : g.PrefixTightest) {ts : List Token}
    (hts : ∀ t ∈ ts, g.Knows t) : g.PrefixSafe ts := by
  have hregisters : ∀ t ∈ ts, t.kind ≠ .identifier → g.Registers t := by
    intro t ht hne
    exact (hts t ht).resolve_left hne
  -- the comparison comes out the same for any two operations, wherever they stand
  apply List.Pairwise.isChain
  rw [List.pairwise_iff_forall_sublist]
  intro o u hsub ho hu
  have hmem := hsub.subset
  refine h.bindsTighter (hregisters o (hmem (by simp)) ?_) ho (hregisters u (hmem (by simp)) ?_) hu
  · intro hk
    simp [hk, Kind.isOperation] at ho
  · simp [hu]

/-! ## §2 Growing at the right edge -/

variable {t p : Tree} {ts us : List Token} {b : Token}

/-- On the left edge of the second tree nothing is new but `b`, and that only if the whole right
edge of the first tree is tighter. -/
def Grammar.Keeps (g : Grammar) (t : Tree) (b : Token) (t' : Tree) : Prop :=
  ∀ q ∈ t'.leftEdge, q ∈ t.leftEdge ∨ q = b ∧ ∀ x ∈ t.rightEdge, g.bindsTighter x b = .ok true

/-- An operation before the tree is no tighter than what comes to its left edge, unless it is
tighter than `b` like the whole right edge. -/
theorem Grammar.Keeps.bindsTighter {t' : Tree} {o : Token} (h : g.Keeps t b t')
    (hold : ∀ q ∈ t.leftEdge, g.bindsTighter o q = .ok false) (ho : g.Registers o)
    (hko : o.kind.isOperation = true) (hreg : g.Registers b) (hkb : b.kind.isOperation = true)
    (hedge : ¬ ∀ x ∈ o :: t.rightEdge, g.bindsTighter x b = .ok true) :
    ∀ q ∈ t'.leftEdge, g.bindsTighter o q = .ok false := by
  intro q hq
  rcases h q hq with hq | ⟨rfl, htight⟩
  · exact hold q hq
  · -- everything below `o` on the edge is tighter, so `o` is not
    apply Grammar.bindsTighter_eq_false ho hko hreg hkb
    intro htrue
    apply hedge
    simpa [htrue] using htight

/-- The operation becomes the root, with the whole tree as its left operand. -/
theorem exists_attach_root (hts : Reads g t ts) (ht : g.Respects t) (hus : Reads g p us)
    (hp : g.Respects p) (hb : b.kind = .binary)
    (hpb : ∀ q ∈ p.leftEdge, g.bindsTighter b q = .ok false)
    (hedge : ∀ x ∈ t.rightEdge, g.bindsTighter x b = .ok true) :
    ∃ t', Reads g t' (ts ++ b :: us) ∧ g.Respects t' ∧ g.Keeps t b t' := by
  refine ⟨.binary b (arity_binary hb) t p, .chain _ hb hts hus, ?_, ?_⟩
  · exact respects_binary.mpr ⟨⟨hedge, hpb⟩, ht, hp⟩
  · intro q hq
    rcases List.mem_cons.mp hq with rfl | hq
    · exact .inr ⟨rfl, hedge⟩
    · exact .inl hq

/-- A line that reads as `t`, an infix operation and a line that reads as `p` read together as a
tree. If the operation gets a place on the left edge, the whole right edge of `t` is tighter. -/
theorem exists_attach (hts : Reads g t ts) (ht : g.Respects t) (hus : Reads g p us)
    (hp : g.Respects p) (hb : b.kind = .binary) (hreg : g.Registers b)
    (hknown : ∀ x ∈ ts, g.Knows x) (hpb : ∀ q ∈ p.leftEdge, g.bindsTighter b q = .ok false) :
    ∃ t', Reads g t' (ts ++ b :: us) ∧ g.Respects t' ∧ g.Keeps t b t' := by
  have hkb : b.kind.isOperation = true := by rw [hb]; rfl
  -- down the right edge, up to the first subtree whose edge is tighter throughout
  induction hts with
  | name h hk =>
    exact exists_attach_root (.name h hk) ht hus hp hb hpb (by simp [Tree.rightEdge])
  | bracketed h hclose ha =>
    -- nothing in a bracket is on the edge
    exact exists_attach_root (.bracketed h hclose ha) ht hus hp hb hpb
      (by simp [Tree.rightEdge, hclose.kind_opening])
  | @signed o a ts h hk ha ih =>
    have hedgeo : (Tree.unary o h a).rightEdge = o :: a.rightEdge := by
      simp [Tree.rightEdge, hk]
    by_cases hedge : ∀ x ∈ (Tree.unary o h a).rightEdge, g.bindsTighter x b = .ok true
    · exact exists_attach_root (.signed h hk ha) ht hus hp hb hpb hedge
    · -- `b` goes into the operand
      have hko : o.kind.isOperation = true := by rw [hk]; rfl
      obtain ⟨hat, hra⟩ := respects_unary.mp ht
      obtain ⟨a', ha', hra', hkeeps⟩ := ih hra fun x hx => hknown x (by simp [hx])
      have hleft : ∀ q ∈ a'.leftEdge, g.bindsTighter o q = .ok false :=
        hkeeps.bindsTighter (hat hk) ((hknown o (by simp)).registers hko) hko hreg hkb
          (hedgeo ▸ hedge)
      refine ⟨.unary o h a', .signed h hk ha', respects_unary.mpr ⟨fun _ => hleft, hra'⟩, ?_⟩
      intro q hq
      exact .inl (by simpa [Tree.leftEdge, hk] using hq)
  | @chain o x y ts vs h hk hx hy _ ihy =>
    by_cases hedge : ∀ q ∈ (Tree.binary o h x y).rightEdge, g.bindsTighter q b = .ok true
    · exact exists_attach_root (.chain h hk hx hy) ht hus hp hb hpb hedge
    · -- `b` goes into the right operand
      have hko : o.kind.isOperation = true := by rw [hk]; rfl
      obtain ⟨⟨hxo, hoy⟩, hrx, hry⟩ := respects_binary.mp ht
      obtain ⟨y', hy', hry', hkeeps⟩ := ihy hry fun q hq => hknown q (by simp [hq])
      have hleft : ∀ q ∈ y'.leftEdge, g.bindsTighter o q = .ok false :=
        hkeeps.bindsTighter hoy ((hknown o (by simp)).registers hko) hko hreg hkb hedge
      refine ⟨.binary o h x y', ?_, respects_binary.mpr ⟨⟨hxo, hleft⟩, hrx, hry'⟩, ?_⟩
      · simpa using Reads.chain h hk hx hy'
      · intro q hq
        exact .inl hq

/-! ## §3 The reading of an expression -/

/-- **Every expression that leaves its prefix operations alone reads as a tree that respects
precedence.** Only a prefix operation can be on the left edge of an operand. -/
theorem exists_respectful_reading {phrase : Phrase} (h : Derives g phrase ts)
    (hsafe : g.PrefixSafe ts) (hknown : ∀ x ∈ ts, g.Knows x) :
    ∃ t, Reads g t ts ∧ g.Respects t ∧
      (phrase = .operand → ∀ q ∈ t.leftEdge, q.kind = .unary ∧ q ∈ ts.head?) := by
  induction h with
  | single _ ih =>
    obtain ⟨t, hts, ht, -⟩ := ih hsafe hknown
    exact ⟨t, hts, ht, nofun⟩
  | @chain ts us b _ hb _ ihts ihus =>
    obtain ⟨hsafets, hsafebus, -⟩ := List.isChain_append.mp hsafe
    obtain ⟨hsafeb, hsafeus⟩ := List.isChain_cons.mp hsafebus
    obtain ⟨t, hts, ht, -⟩ := ihts hsafets fun x hx => hknown x (by simp [hx])
    obtain ⟨p, hus, hp, hleft⟩ := ihus hsafeus fun x hx => hknown x (by simp [hx])
    have hreg : g.Registers b := (hknown b (by simp)).registers (by simp [hb, Kind.isOperation])
    -- on the left edge there is at most the prefix operation directly behind `b`
    have hpb : ∀ q ∈ p.leftEdge, g.bindsTighter b q = .ok false := by
      intro q hq
      obtain ⟨hk, hhead⟩ := hleft rfl q hq
      exact hsafeb q hhead (by simp [hb, Kind.isOperation]) hk
    obtain ⟨t', ht', hrt', -⟩ := exists_attach hts ht hus hp hb hreg
      (fun x hx => hknown x (by simp [hx])) hpb
    exact ⟨t', ht', hrt', nofun⟩
  | @name t hk => exact ⟨.leaf t (arity_identifier hk), .name _ hk, respects_leaf, by
      simp [Tree.leftEdge]⟩
  | @signed ts u hu _ ih =>
    obtain ⟨hsafeu, hsafets⟩ := List.isChain_cons.mp hsafe
    obtain ⟨t, hts, ht, hleft⟩ := ih hsafets fun x hx => hknown x (by simp [hx])
    refine ⟨.unary u (arity_unary hu) t, .signed _ hu hts, respects_unary.mpr ⟨?_, ht⟩, ?_⟩
    · intro _ q hq
      obtain ⟨hk, hhead⟩ := hleft rfl q hq
      exact hsafeu q hhead (by simp [hu, Kind.isOperation]) hk
    · simp [Tree.leftEdge, hu]
  | @bracketed ts o c hclose _ ih =>
    have ho := hclose.kind_opening
    obtain ⟨-, hsafetsc⟩ := List.isChain_cons.mp hsafe
    obtain ⟨hsafets, -, -⟩ := List.isChain_append.mp hsafetsc
    obtain ⟨t, hts, ht, -⟩ := ih hsafets fun x hx => hknown x (by simp [hx])
    refine ⟨.unary o (arity_opening ho) t, .bracketed _ hclose hts,
      respects_unary.mpr ⟨?_, ht⟩, ?_⟩
    · simp [Grammar.RespectsAt, ho]
    · simp [Tree.leftEdge, ho]

end Fixity
