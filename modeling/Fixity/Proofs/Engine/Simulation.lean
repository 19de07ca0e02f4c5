import Fixity.Proofs.Engine.Runs
import Fixity.Proofs.Tree.Postfix
import Fixity.Proofs.Tree.Reading

/-!
# The engine follows the tree

While the engine reads a line that has a reading which respects precedence, its stacks are those
of a walk over that tree. When the tokens of a subtree are read, the operations on its right edge
wait, in their order, and everything else of the subtree is on the output in postfix order. The
operation that comes next to the right of it is the one that sends them out.

## Main statements

- `exists_settled`: what the engine does while it reads a subtree
- `parseTokens_of_respects`: a reading that respects precedence is what is parsed
-/

namespace Fixity

open Stacks

variable {g : Grammar} {t : Tree} {ts : List Token}

/-! ## §1 Operations on an edge -/

/-- Towards the left edge of its operand an operation does not give way. -/
theorem yields_of_leftEdge (h : Reads g t ts) {o : Token}
    (hedge : ∀ q ∈ t.leftEdge, g.bindsTighter o q = .ok false) :
    ∀ q ∈ t.leftEdge, g.yields o q = .ok false := by
  intro q hq
  rw [Grammar.yields_operation (h.mem_leftEdge q hq).2]
  exact hedge q hq

/-- Neither does an opening bracket. -/
theorem yields_opening_leftEdge (h : Reads g t ts) (hts : ∀ x ∈ ts, g.Supports x) {o : Token}
    (ho : g.Registers o) (hk : o.kind = .opening) : ∀ q ∈ t.leftEdge, g.yields o q = .ok false := by
  intro q hq
  obtain ⟨hmem, hop⟩ := h.mem_leftEdge q hq
  exact Grammar.yields_opening ho hk (hts q hmem) hop

/-! ## §2 Reading a subtree -/

/-- **The engine follows the tree.** The operator on top of the stack stays below the subtree, as
it does not give way to any operation on its left edge. -/
theorem exists_settled (h : Reads g t ts) (ht : g.Respects t) (hts : ∀ x ∈ ts, g.Supports x) :
    ∃ settled, t.postorder = settled ++ t.rightEdge.reverse ∧
      ∀ (top : Token) (rest output : List Token),
        (∀ q ∈ t.leftEdge, g.yields top q = .ok false) →
          consumeAll g ⟨top :: rest, output⟩ ts =
            (⟨t.rightEdge.reverse ++ top :: rest, settled.reverse ++ output⟩, none) := by
  induction h with
  | @name u harity hk =>
    -- an identifier does not wait
    refine ⟨[u], by simp [Tree.postorder, Tree.rightEdge], ?_⟩
    intro top rest output _
    rw [consumeAll_cons (consume_identifier hk _)]
    rfl
  | @signed u a ts harity hk ha ih =>
    obtain ⟨hat, hra⟩ := respects_unary.mp ht
    obtain ⟨settled, hpost, hread⟩ := ih hra fun x hx => hts x (by simp [hx])
    have hright : (Tree.unary u harity a).rightEdge = u :: a.rightEdge := by
      simp [Tree.rightEdge, hk]
    refine ⟨settled, by simp [Tree.postorder, hright, hpost], ?_⟩
    intro top rest output htop
    -- the prefix operation stays on top of what waits, and below its operand
    have hflush : flush g u (top :: rest) output = (⟨top :: rest, output⟩, none) := by
      apply flush_stop
      exact htop u (by simp [Tree.leftEdge, hk])
    have hop : u.kind.isOperation = true := by rw [hk]; rfl
    rw [consumeAll_cons (consume_operation hop hflush),
      hread u (top :: rest) output (yields_of_leftEdge ha (hat hk)), hright]
    simp
  | @bracketed o c a ts harity hclose ha ih =>
    have hk := hclose.kind_opening
    obtain ⟨-, hra⟩ := respects_unary.mp ht
    obtain ⟨settled, hpost, hread⟩ := ih hra fun x hx => hts x (by simp [hx])
    have hreg : g.Registers o := (hts o (by simp)).1.resolve_left (by simp [hk])
    have hright : (Tree.unary o harity a).rightEdge = [] := by simp [Tree.rightEdge, hk]
    refine ⟨a.postorder ++ [o], by simp [Tree.postorder, hright], ?_⟩
    intro top rest output _
    -- for the content the bracket is the operator that stays below
    have hcontent := hread o (top :: rest) output
      (yields_opening_leftEdge ha (fun x hx => hts x (by simp [hx])) hreg hk)
    have hops : ∀ p ∈ a.rightEdge.reverse, p.kind.isOperation = true := by
      intro p hp
      exact (ha.mem_rightEdge p (List.mem_reverse.mp hp)).2
    -- the partner sends out the right edge and then the bracket
    rw [consumeAll_cons (consume_opening hk _), consumeAll_append hcontent, consumeAll,
      consume_closing hclose.kind_closing, closeBracket_content hclose hops, hright, hpost]
    simp [consumeAll]
  | @chain b x y ts us harity hk hx hy ihx ihy =>
    obtain ⟨⟨hxb, hby⟩, hrx, hry⟩ := respects_binary.mp ht
    obtain ⟨settledx, hpostx, hreadx⟩ := ihx hrx fun q hq => hts q (by simp [hq])
    obtain ⟨settledy, hposty, hready⟩ := ihy hry fun q hq => hts q (by simp [hq])
    have hop : b.kind.isOperation = true := by rw [hk]; rfl
    refine ⟨x.postorder ++ settledy, by simp [Tree.postorder, Tree.rightEdge, hposty], ?_⟩
    intro top rest output htop
    have hleft := hreadx top rest output fun q hq => htop q (by simp [Tree.leftEdge, hq])
    -- the infix operation sends out the right edge of its left operand
    have hedge : ∀ p ∈ x.rightEdge.reverse, g.yields p b = .ok true := by
      intro p hp
      rw [Grammar.yields_operation hop]
      exact hxb p (List.mem_reverse.mp hp)
    have hflush : flush g b (x.rightEdge.reverse ++ top :: rest) (settledx.reverse ++ output) =
        (⟨top :: rest, x.postorder.reverse ++ output⟩, none) := by
      rw [flush_append hedge, flush_stop (htop b (by simp [Tree.leftEdge])), hpostx]
      simp
    -- then it stays below its right operand
    rw [consumeAll_append hleft, consumeAll_cons (consume_operation hop hflush),
      hready b (top :: rest) _ (yields_of_leftEdge hy hby)]
    simp [Tree.rightEdge]

/-! ## §3 Parsing a reading -/

theorem Reads.headsNode (h : Reads g t ts) : ∀ x ∈ t.postorder, x.HeadsNode := by
  induction h with
  | name _ hk =>
    intro x hx
    rw [List.mem_singleton.mp hx]
    simp [Token.HeadsNode, hk, Kind.isSentinel]
  | signed _ hk _ ih =>
    intro x hx
    rcases List.mem_append.mp hx with hx | hx
    · exact ih x hx
    · rw [List.mem_singleton.mp hx]
      simp [Token.HeadsNode, hk, Kind.isSentinel]
  | bracketed _ hclose _ ih =>
    intro x hx
    rcases List.mem_append.mp hx with hx | hx
    · exact ih x hx
    · rw [List.mem_singleton.mp hx]
      simp [Token.HeadsNode, hclose.kind_opening, Kind.isSentinel]
  | chain _ hk _ _ iha ihb =>
    intro x hx
    rcases List.mem_append.mp hx with hx | hx
    · rcases List.mem_append.mp hx with hx | hx
      · exact iha x hx
      · exact ihb x hx
    · rw [List.mem_singleton.mp hx]
      simp [Token.HeadsNode, hk, Kind.isSentinel]

theorem runFresh_of_respects (h : Reads g t ts) (ht : g.Respects t)
    (hts : ∀ x ∈ ts, g.Supports x) (hspans : ∀ x ∈ ts, x.Spanned) :
    (g.runFresh ts).result = .ok t.postorder := by
  have haccepts : Checker.Accepts g ts := accepts_iff_derives.mpr h.derives
  obtain ⟨settled, hpost, hread⟩ := exists_settled h ht hts
  -- the whole line is read above its beginning
  have hstart : ∀ q ∈ t.leftEdge, g.yields .start q = .ok false := by
    intro q hq
    obtain ⟨hmem, hop⟩ := h.mem_leftEdge q hq
    exact Grammar.yields_start (hts q hmem) hop
  rw [runFresh_accepted hts hspans haccepts (hread .start [] [] hstart), hpost]
  simp

/-- A list is parsed to the tree whose postfix order comes out of the run. -/
theorem parseTokens_eq_ok_iff :
    g.parseTokens ts = .ok t ↔
      (g.runFresh ts).result = .ok t.postorder ∧ ∀ x ∈ t.postorder, x.HeadsNode := by
  constructor
  · intro h
    unfold Grammar.parseTokens at h
    -- neither the run nor the building of the tree has failed
    cases hrun : (g.runFresh ts).result with
    | error f => simp [hrun] at h
    | ok postfixed =>
      cases hbuilt : Tree.ofPostfix? postfixed with
      | error f => simp [hrun, hbuilt, Except.mapError] at h
      | ok u =>
        obtain rfl : u = t := by simpa [hrun, hbuilt, Except.mapError] using h
        obtain ⟨rfl, hheads⟩ := Tree.ofPostfix?_eq_ok_iff.mp hbuilt
        exact ⟨rfl, hheads⟩
  · intro ⟨hrun, hheads⟩
    rw [Grammar.parseTokens, hrun]
    simp only [Tree.ofPostfix?_eq_ok_iff.mpr ⟨rfl, hheads⟩]
    rfl

/-- **A reading that respects precedence is what is parsed.** -/
theorem parseTokens_of_respects (h : Reads g t ts) (ht : g.Respects t)
    (hts : ∀ x ∈ ts, g.Supports x) (hspans : ∀ x ∈ ts, x.Spanned) :
    g.parseTokens ts = .ok t :=
  parseTokens_eq_ok_iff.mpr ⟨runFresh_of_respects h ht hts hspans, h.headsNode⟩

end Fixity
