import Fixity.Proofs.Engine.Frame

/-!
# What a successful run tells

In a grammar of any size a token that was taken in did not break the order of the ranks: the
beginning of the line is still at the bottom of the operator stack, nothing above it comes after
the brackets in rank, and inside a bracket every operation comes before them. So the run of a
line that has a postfix order can be taken apart without asking how many classes there are.

## Main statements

- `Seated.consumeAll`: while tokens are taken in, the beginning of the line stays at the bottom
- `exists_of_runFresh`: how a postfix order came about
- `supports_of_consumeAll`: the operations inside a bracket come before the brackets in rank
-/

namespace Fixity

variable {g : Grammar}

namespace Stacks

variable {s s' : Stacks} {t : Token} {ts us : List Token}

/-! ## §1 The beginning of the line -/

/-- At the bottom is the beginning of the line, and nothing above it comes after the brackets in
rank. -/
def Seated (g : Grammar) (operators : List Token) : Prop :=
  ∃ above, operators = above ++ [.start] ∧
    ∀ p : Token, p ∈ above → g.Registers p ∧ ∃ i, g.rank? p = some i ∧ i ≤ Grammar.bracketRank

theorem seated_start : Seated g [.start] :=
  ⟨[], rfl, nofun⟩

theorem Seated.append {operators ops : List Token} (h : Seated g operators)
    (hops : ∀ p : Token, p ∈ ops →
      g.Registers p ∧ ∃ i, g.rank? p = some i ∧ i ≤ Grammar.bracketRank) :
    Seated g (ops ++ operators) := by
  obtain ⟨above, rfl, habove⟩ := h
  refine ⟨ops ++ above, by rw [List.append_assoc], ?_⟩
  intro p hp
  rcases List.mem_append.mp hp with hp | hp
  · exact hops p hp
  · exact habove p hp

theorem Seated.cons {operators : List Token} (h : Seated g operators) (ht : g.Registers t)
    {i : Nat} (hi : g.rank? t = some i) (hle : i ≤ Grammar.bracketRank) :
    Seated g (t :: operators) := by
  have hsingle : ∀ p : Token, p ∈ [t] →
      g.Registers p ∧ ∃ i, g.rank? p = some i ∧ i ≤ Grammar.bracketRank := by
    intro p hp
    rw [List.mem_singleton.mp hp]
    exact ⟨ht, i, hi, hle⟩
  exact h.append hsingle

theorem Seated.cons_opening {operators : List Token} (h : Seated g operators) (ht : g.Registers t)
    (hk : t.kind = .opening) : Seated g (t :: operators) :=
  h.cons ht (ht.rank?_opening hk) (le_refl _)

theorem Seated.append_pending {operators ops : List Token} (h : Seated g operators)
    (hops : g.Pending ops) : Seated g (ops ++ operators) := by
  apply h.append
  intro p hp
  obtain ⟨hsupports, hk⟩ := hops p hp
  obtain ⟨i, hi, hlt⟩ := hsupports.2 hk
  exact ⟨hsupports.1.registers hk, i, hi, by omega⟩

/-- An operation that came after the brackets in rank would get down to the beginning of the line
and fail there. -/
theorem Seated.exists_rank {operators output : List Token} (h : Seated g operators)
    (ht : g.Registers t) (hk : t.kind.isOperation = true)
    (hflush : flush g t operators output = (s, none)) :
    ∃ i, g.rank? t = some i ∧ i ≤ Grammar.bracketRank := by
  obtain ⟨above, rfl, habove⟩ := h
  obtain ⟨i, -, hi, -⟩ := Grammar.exists_rank? ht hk
  refine ⟨i, hi, ?_⟩
  by_contra hlt
  -- then everything down to the beginning of the line gives way
  have hyields : ∀ p ∈ above, g.yields p t = .ok true := by
    intro p hp
    obtain ⟨-, j, hj, hle⟩ := habove p hp
    rw [Grammar.yields_operation hk]
    exact Grammar.bindsTighter_of_lt hj hi (by omega)
  rw [flush_append hyields, flush, Grammar.yields_operation hk] at hflush
  by_cases hsentinel : i = Grammar.sentinelRank
  · -- a tie with the sentinel
    rw [hsentinel] at hi
    rw [Grammar.bindsTighter_tie Grammar.rank?_start hi (by decide)] at hflush
    simp at hflush
  · -- the sentinel would give way, and nothing is below it
    have hranks : Grammar.sentinelRank = Grammar.bracketRank + 1 := rfl
    rw [Grammar.bindsTighter_of_lt Grammar.rank?_start hi (by omega)] at hflush
    simp [flush] at hflush

/-- What is left above the beginning of the line stays in order. -/
theorem Seated.of_moved {popped : List Token} (h : Seated g s.operators)
    (hmoved : Moved s s' popped) (hne : s'.operators ≠ []) : Seated g s'.operators := by
  obtain ⟨above, hs, habove⟩ := h
  obtain ⟨rest, last, hrest⟩ := (List.eq_nil_or_concat' s'.operators).resolve_left hne
  have hsplit := hmoved.1
  rw [hs, hrest, ← List.append_assoc] at hsplit
  obtain ⟨rfl, hlast⟩ := List.append_inj' hsplit rfl
  rw [hrest, ← List.singleton_inj.mp hlast]
  refine ⟨rest, rfl, ?_⟩
  intro p hp
  exact habove p (by simp [hp])

theorem Seated.consume (h : Seated g s.operators) (ht : g.Knows t)
    (hstep : s.consume g t = (s', none)) : Seated g s'.operators := by
  cases takes_of_consume hstep with
  | identifier => exact h
  | opening hk => exact h.cons_opening (ht.resolve_left (by simp [hk])) hk
  | operation hk hflush hmoved hne =>
    obtain ⟨i, hi, hle⟩ := h.exists_rank (ht.registers hk) hk hflush
    exact (h.of_moved hmoved hne).cons (ht.registers hk) hi hle
  | closing _ hmoved hpopped =>
    apply h.of_moved hmoved
    -- the beginning of the line is not sent out
    intro hnone
    obtain ⟨above, hs, -⟩ := h
    have hall := hmoved.1
    rw [hnone, List.append_nil] at hall
    exact hpopped .start (by simp [← hall, hs]) rfl
  | finish _ hmoved hne => exact h.of_moved hmoved hne

theorem Seated.consumeAll (h : Seated g s.operators) (hts : ∀ t ∈ ts, g.Knows t)
    (hread : s.consumeAll g ts = (s', none)) : Seated g s'.operators := by
  induction ts generalizing s with
  | nil =>
    rw [Stacks.consumeAll, Prod.mk.injEq] at hread
    rw [← hread.1]
    exact h
  | cons t ts ih =>
    obtain ⟨s₁, hstep, hrest⟩ := exists_of_consumeAll_cons hread
    exact ih (h.consume (hts t (by simp)) hstep) (fun u hu => hts u (by simp [hu])) hrest

end Stacks

open Stacks Checker

/-! ## §2 How a postfix order came about -/

/-- **A postfix order is what the stacks put out**, and behind that the operators that wait when
the line ends. The checker has accepted the line. -/
theorem exists_of_runFresh {tokens content : List Token} (hknown : ∀ t ∈ tokens, g.Knows t)
    (hspans : ∀ t ∈ tokens, t.Spanned) (h : (g.runFresh tokens).result = .ok content) :
    Accepts g tokens ∧ ∃ ops out, consumeAll g {} tokens = (⟨ops ++ [.start], out⟩, none) ∧
      content = out.reverse ++ ops := by
  obtain ⟨e, ⟨he, -⟩, hsentinel⟩ := exists_sentinel hspans
  obtain ⟨hstopped, hresult⟩ := hsentinel g
  have hkind : e.kind = .finish := congrArg Lexeme.kind he
  have hstop : Engine.stop? g tokens e = none := by
    cases hstop : Engine.stop? g tokens e with
    | none => rfl
    | some f => simp [hstopped f hstop] at h
  refine ⟨(feed_append_finish hkind).mp (Engine.feed_readAll hstop), ?_⟩
  -- the tokens come first, and leave the beginning of the line at the bottom
  obtain ⟨s, hs, hend⟩ := exists_of_consumeAll_append (Engine.consumeAll_readAll hstop)
  obtain ⟨ops, hops, hranks⟩ := Seated.consumeAll (s := {}) seated_start hknown hs
  -- the sentinel sends out what still waits
  have hyields : ∀ p ∈ ops, g.yields p e = .ok true := by
    intro p hp
    obtain ⟨hreg, i, hi, hle⟩ := hranks p hp
    apply Grammar.yields_finish hi hle _ he
    intro hstart
    rcases hreg.kind with hk | hk | hk <;> simp [hstart, Kind.isOperation] at hk
  have hall : consumeAll g {} (tokens ++ [e]) = (⟨[.start], ops.reverse ++ s.output⟩, none) := by
    rw [consumeAll_append hs, consumeAll, consume_finish hkind, hops, flush_append hyields,
      flush_stop (Grammar.yields_start_finish hkind)]
    rfl
  refine ⟨ops, s.output, by rw [hs, ← hops], ?_⟩
  rw [hresult hstop _ hall] at h
  simpa using (Except.ok.inj h).symm

/-- A postfix order has the tokens of the line but for the closing brackets. -/
theorem perm_runFresh {tokens content : List Token} (hknown : ∀ t ∈ tokens, g.Knows t)
    (hspans : ∀ t ∈ tokens, t.Spanned) (h : (g.runFresh tokens).result = .ok content) :
    content.Perm (tokens.filter (·.kind ≠ .closing)) := by
  obtain ⟨-, ops, out, hconsume, rfl⟩ := exists_of_runFresh hknown hspans h
  -- the sentinel of the end is not a token of the line
  have hkinds : ∀ t ∈ tokens, t.kind ≠ .finish := by
    intro t ht hfinish
    have hno := (hknown t ht).isSentinel_eq_false
    simp [hfinish, Kind.isSentinel] at hno
  have hperm := perm_consumeAll hkinds hconsume
  -- the beginning of the line stands on both sides
  have hstart : (ops ++ [Token.start] ++ out).Perm (Token.start :: (ops ++ out)) := by
    rw [List.append_assoc]
    exact List.perm_middle
  have hrest := (hstart.symm.trans hperm).cons_inv
  exact (List.perm_append_comm.trans ((List.reverse_perm out).append_left ops)).trans hrest

/-! ## §3 Inside a bracket -/

/-- Above an open bracket only an operation that comes before it in rank is taken in. -/
theorem supports_of_consume {t o : Token} {ops operators output : List Token} {s : Stacks}
    (hops : g.Pending ops) (ho : g.Registers o) (hopen : o.kind = .opening)
    (hseated : Seated g operators) (ht : g.Knows t) (hk : t.kind.isOperation = true)
    (hstep : consume g ⟨ops ++ o :: operators, output⟩ t = (s, none)) : g.Supports t := by
  obtain ⟨s₁, hflush, -⟩ := exists_of_consume_operation hk hstep
  have hall : Seated g (ops ++ o :: operators) :=
    (hseated.cons_opening ho hopen).append_pending hops
  obtain ⟨i, hi, hle⟩ := hall.exists_rank (ht.registers hk) hk hflush
  refine ⟨ht, fun _ => ⟨i, hi, ?_⟩⟩
  by_contra hge
  -- then it gets down to the bracket, as all that waits above the bracket gives way
  have hrank : i = Grammar.bracketRank := by omega
  have hyields : ∀ p ∈ ops, g.yields p t = .ok true := by
    intro p hp
    obtain ⟨j, hj, hlt⟩ := (hops p hp).1.2 (hops p hp).2
    rw [Grammar.yields_operation hk]
    exact Grammar.bindsTighter_of_lt hj hi (by omega)
  -- a tie with the bracket
  have hbracket : ¬ o.kind.isOperation = true := by simp [hopen, Kind.isOperation]
  rw [flush_append hyields, flush, Grammar.yields_operation hk,
    Grammar.bindsTighter_tie (ho.rank?_opening hopen) (hrank ▸ hi) hbracket] at hflush
  simp at hflush

/-- What is read behind such an operation is read in the same bracket. -/
theorem exists_of_consumeAll_operation {t o : Token} {us ops operators output : List Token}
    {s : Stacks} (hops : g.Pending ops) (ho : g.Registers o) (hopen : o.kind = .opening)
    (hseated : Seated g operators) (ht : g.Knows t) (hk : t.kind.isOperation = true)
    (hread : consumeAll g ⟨ops ++ o :: operators, output⟩ (t :: us) = (s, none)) :
    g.Supports t ∧ ∃ kept output', g.Pending kept ∧
      consumeAll g ⟨kept ++ o :: operators, output'⟩ us = (s, none) := by
  obtain ⟨s₁, hstep, hrest⟩ := exists_of_consumeAll_cons hread
  have hsupports := supports_of_consume hops ho hopen hseated ht hk hstep
  -- so the bracket holds, and stays where it is
  obtain ⟨popped, kept, hkept, hconsume⟩ := hops.exists_consume hsupports hk
  have hstacks := (hconsume o operators output (holds_opening ho hopen)).symm.trans hstep
  rw [← (Prod.mk.inj hstacks).1] at hrest
  exact ⟨hsupports, t :: kept, popped ++ output, hkept, hrest⟩

/-- **Inside a bracket every operation comes before the brackets in rank.** -/
theorem supports_of_consumeAll {phrase : Phrase} {ts : List Token} (h : Derives g phrase ts)
    (hknown : ∀ x ∈ ts, g.Knows x) {o : Token} {ops operators output : List Token} {s : Stacks}
    (hops : g.Pending ops) (ho : g.Registers o) (hopen : o.kind = .opening)
    (hseated : Seated g operators)
    (hread : consumeAll g ⟨ops ++ o :: operators, output⟩ ts = (s, none)) :
    ∀ x ∈ ts, g.Supports x := by
  induction h generalizing o ops operators output s with
  | single _ ih => exact ih hknown hops ho hopen hseated hread
  | @name t hk =>
    -- only operations have to come before the brackets
    intro x hx
    rw [List.mem_singleton.mp hx]
    exact ⟨.inl hk, by simp [hk, Kind.isOperation]⟩
  | @signed ts u hu _ ih =>
    obtain ⟨hsupports, kept, output', hkept, hrest⟩ := exists_of_consumeAll_operation hops ho hopen
      hseated (hknown u (by simp)) (by rw [hu]; rfl) hread
    have hothers := ih (fun x hx => hknown x (by simp [hx])) hkept ho hopen hseated hrest
    intro x hx
    rcases List.mem_cons.mp hx with rfl | hx
    · exact hsupports
    · exact hothers x hx
  | @bracketed ts o' c hclose _ ih =>
    obtain ⟨s₁, hstep, hrest⟩ := exists_of_consumeAll_cons hread
    rw [consume_opening hclose.kind_opening, Prod.mk.injEq] at hstep
    rw [← hstep.1] at hrest
    obtain ⟨s₂, hcontent, -⟩ := exists_of_consumeAll_append hrest
    -- the inner bracket takes the place of the outer one
    have hinner : Seated g (ops ++ o :: operators) :=
      (hseated.cons_opening ho hopen).append_pending hops
    have hothers := ih (fun x hx => hknown x (by simp [hx])) Grammar.pending_nil
      hclose.registers_opening hclose.kind_opening hinner hcontent
    intro x hx
    rcases List.mem_cons.mp hx with rfl | hx
    · exact ⟨hknown x (by simp), by simp [hclose.kind_opening, Kind.isOperation]⟩
    · rcases List.mem_append.mp hx with hx | hx
      · exact hothers x hx
      · rw [List.mem_singleton.mp hx]
        exact ⟨hknown c (by simp), by simp [hclose.kind_closing, Kind.isOperation]⟩
  | @chain ts us t hts hb _ ihts ihus =>
    obtain ⟨s₁, hleft, hright⟩ := exists_of_consumeAll_append hread
    have hfirst := ihts (fun x hx => hknown x (by simp [hx])) hops ho hopen hseated hleft
    -- now it is known what the left operand leaves above the bracket
    obtain ⟨waiting, sent, hwaiting, hframe⟩ := hts.exists_frame hfirst hops
    have hstacks := (hframe o operators output (holds_opening ho hopen)).symm.trans hleft
    rw [← (Prod.mk.inj hstacks).1] at hright
    obtain ⟨hsupports, kept, output', hkept, hrest⟩ := exists_of_consumeAll_operation hwaiting ho
      hopen hseated (hknown t (by simp)) (by rw [hb]; rfl) hright
    have hlast := ihus (fun x hx => hknown x (by simp [hx])) hkept ho hopen hseated hrest
    intro x hx
    rcases List.mem_append.mp hx with hx | hx
    · exact hfirst x hx
    · rcases List.mem_cons.mp hx with rfl | hx
      · exact hsupports
      · exact hlast x hx

end Fixity
