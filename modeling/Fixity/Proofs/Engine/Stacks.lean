import Fixity.Proofs.Checker.Expression
import Fixity.Proofs.Grammar.Ranks
import Fixity.Proofs.Pieces.Tokens

/-!
# The two stacks in step with the checker

What flushing and closing a bracket do to the stacks, and the invariant that ties the operator
stack to the open brackets of the checker: at its bottom stands the beginning of the line, above
it only operations and the open brackets, in the order in which the checker knows them. While it
holds, a token that passes the check is taken in without a failure.

## Main statements

- `exists_flush`: how an incoming token splits the operators above a token that stays
- `closeBracket_content`: a closing bracket sends the operations down to its partner away
- `takes_of_consume`: all that taking in a token can do
- `perm_consume`: the stacks together gain the token and lose nothing
- `Lockstep.consume`: a token that passes the check is taken in, and the invariant stays
-/

namespace Fixity

variable {g : Grammar}

namespace Stacks

/-! ## §1 Flushing -/

theorem flush_append {t : Token} {ops : List Token} (h : ∀ p ∈ ops, g.yields p t = .ok true)
    (rest output : List Token) :
    flush g t (ops ++ rest) output = flush g t rest (ops.reverse ++ output) := by
  induction ops generalizing output with
  | nil => rfl
  | cons p ops ih =>
    rw [List.cons_append, flush, h p (by simp), List.reverse_cons, List.append_assoc]
    exact ih (fun q hq => h q (by simp [hq])) (p :: output)

theorem flush_stop {t top : Token} (h : g.yields top t = .ok false) (rest output : List Token) :
    flush g t (top :: rest) output = (⟨top :: rest, output⟩, none) := by
  rw [flush, h]

/-- An incoming token sends out the operators that bind tighter, from the top down to the first
that does not. What is below them, and the output before, does not matter. -/
theorem exists_flush {t : Token} {ops : List Token} (h : ∀ p ∈ ops, ∃ v, g.yields p t = .ok v) :
    ∃ popped kept, ops = popped ++ kept ∧ (∀ p ∈ popped, g.yields p t = .ok true) ∧
      ∀ (b : Token) (rest output : List Token), g.yields b t = .ok false →
        flush g t (ops ++ b :: rest) output =
          (⟨kept ++ b :: rest, popped.reverse ++ output⟩, none) := by
  induction ops with
  | nil => exact ⟨[], [], rfl, nofun, fun b rest output hb => flush_stop hb rest output⟩
  | cons p ops ih =>
    obtain ⟨v, hv⟩ := h p (by simp)
    cases v with
    | false =>
      -- the flush stops here, so nothing is sent out
      refine ⟨[], p :: ops, rfl, nofun, ?_⟩
      intro b rest output _
      exact flush_stop hv _ output
    | true =>
      obtain ⟨popped, kept, rfl, htight, hflush⟩ := ih fun q hq => h q (by simp [hq])
      refine ⟨p :: popped, kept, rfl, by simpa [hv] using htight, ?_⟩
      intro b rest output hb
      rw [List.cons_append, flush, hv]
      simpa using hflush b rest (p :: output) hb

/-- Some operators went from the top of the operator stack to the output, and nothing else
happened. -/
def Moved (s s' : Stacks) (popped : List Token) : Prop :=
  s.operators = popped ++ s'.operators ∧ s'.output = popped.reverse ++ s.output

/-- A flush that ends stops above an operator. -/
theorem exists_of_flush {t : Token} {ops output : List Token} {s : Stacks}
    (h : flush g t ops output = (s, none)) :
    ∃ popped, Moved ⟨ops, output⟩ s popped ∧ s.operators ≠ [] := by
  induction ops generalizing output with
  | nil => simp [flush] at h
  | cons top ops ih =>
    rw [flush] at h
    split at h
    · simp at h
    · -- the top gives way, and the flush goes on below it
      obtain ⟨popped, ⟨hops, hout⟩, hne⟩ := ih h
      refine ⟨top :: popped, ⟨?_, ?_⟩, hne⟩
      · exact congrArg (top :: ·) hops
      · simpa using hout
    · rw [Prod.mk.injEq] at h
      rw [← h.1]
      exact ⟨[], ⟨rfl, rfl⟩, by simp⟩

/-- What a flush leaves of the operators is what was at the bottom, whether it ends or fails. -/
theorem operators_flush {t : Token} (ops output : List Token) :
    (flush g t ops output).1.operators <:+ ops := by
  induction ops generalizing output with
  | nil => exact List.suffix_rfl
  | cons top ops ih =>
    rw [flush]
    split
    · exact List.suffix_rfl
    · exact (ih (top :: output)).trans (List.suffix_cons top ops)
    · exact List.suffix_rfl

/-! ## §2 Closing a bracket -/

theorem closeBracket_append {c : Token} {ops : List Token}
    (h : ∀ p ∈ ops, p.kind.isOperation = true) (rest output : List Token) :
    closeBracket g c (ops ++ rest) output = closeBracket g c rest (ops.reverse ++ output) := by
  induction ops generalizing output with
  | nil => rfl
  | cons p ops ih =>
    -- an operation is neither the bracket that is looked for nor the beginning of the line
    have hp := h p (by simp)
    have hopen : ¬ p.kind = .opening := by
      intro hk
      simp [hk, Kind.isOperation] at hp
    have hstart : ¬ p.kind = .start := by
      intro hk
      simp [hk, Kind.isOperation] at hp
    rw [List.cons_append, closeBracket, if_neg hopen, if_neg hstart, List.reverse_cons,
      List.append_assoc]
    exact ih (fun q hq => h q (by simp [hq])) (p :: output)

theorem closeBracket_partner {o c : Token} (h : g.Closes o c) (rest output : List Token) :
    closeBracket g c (o :: rest) output = (⟨rest, o :: output⟩, none) := by
  rw [closeBracket, if_pos h.kind_opening, if_pos h.openingFor?]

/-- Down to its partner a closing bracket sends away what waits, and the partner after it. -/
theorem closeBracket_content {o c : Token} (h : g.Closes o c) {ops : List Token}
    (hops : ∀ p ∈ ops, p.kind.isOperation = true) (rest output : List Token) :
    closeBracket g c (ops ++ o :: rest) output = (⟨rest, o :: (ops.reverse ++ output)⟩, none) := by
  rw [closeBracket_append hops, closeBracket_partner h]

/-- The beginning of the line is not sent away to close a bracket. -/
theorem exists_of_closeBracket {c : Token} {ops output : List Token} {s : Stacks}
    (h : closeBracket g c ops output = (s, none)) :
    ∃ popped, Moved ⟨ops, output⟩ s popped ∧ ∀ p ∈ popped, p.kind ≠ .start := by
  induction ops generalizing output with
  | nil => simp [closeBracket] at h
  | cons top ops ih =>
    rw [closeBracket] at h
    split at h
    · next hk =>
      split at h
      · -- the partner is the last one that goes
        rw [Prod.mk.injEq] at h
        rw [← h.1]
        exact ⟨[top], ⟨rfl, rfl⟩, by simp [hk]⟩
      · simp at h
    · split at h
      · simp at h
      · next hk =>
        obtain ⟨popped, ⟨hops, hout⟩, hpopped⟩ := ih h
        refine ⟨top :: popped, ⟨?_, ?_⟩, by simpa [hk] using hpopped⟩
        · exact congrArg (top :: ·) hops
        · simpa using hout

/-- So it is when a bracket is closed. -/
theorem operators_closeBracket {t : Token} (ops output : List Token) :
    (closeBracket g t ops output).1.operators <:+ ops := by
  induction ops generalizing output with
  | nil => exact List.suffix_rfl
  | cons top ops ih =>
    rw [closeBracket]
    split
    · split <;> exact List.suffix_cons top ops
    · split
      · exact List.suffix_rfl
      · exact (ih (top :: output)).trans (List.suffix_cons top ops)

/-! ## §3 Taking in one token -/

theorem consume_identifier {t : Token} (h : t.kind = .identifier) (s : Stacks) :
    s.consume g t = (⟨s.operators, t :: s.output⟩, none) := by
  simp [consume, h]

theorem consume_opening {t : Token} (h : t.kind = .opening) (s : Stacks) :
    s.consume g t = (⟨t :: s.operators, s.output⟩, none) := by
  simp [consume, h]

theorem consume_closing {t : Token} (h : t.kind = .closing) (s : Stacks) :
    s.consume g t = closeBracket g t s.operators s.output := by
  simp [consume, h]

theorem consume_finish {t : Token} (h : t.kind = .finish) (s : Stacks) :
    s.consume g t = flush g t s.operators s.output := by
  simp [consume, h]

theorem consume_operation {t : Token} (h : t.kind.isOperation = true) {s s' : Stacks}
    (hflush : flush g t s.operators s.output = (s', none)) :
    s.consume g t = (⟨t :: s'.operators, s'.output⟩, none) := by
  cases hk : t.kind <;> simp [hk, Kind.isOperation] at h <;> simp [consume, hk, hflush]

theorem exists_of_consume_operation {t : Token} (hk : t.kind.isOperation = true)
    {s s' : Stacks} (h : s.consume g t = (s', none)) :
    ∃ s₁, flush g t s.operators s.output = (s₁, none) ∧ s' = ⟨t :: s₁.operators, s₁.output⟩ := by
  cases hflush : flush g t s.operators s.output with
  | mk s₁ f =>
    cases f with
    | none =>
      rw [consume_operation hk hflush, Prod.mk.injEq] at h
      exact ⟨s₁, rfl, h.1.symm⟩
    | some f =>
      cases hkind : t.kind <;> simp [hkind, Kind.isOperation] at hk <;>
        simp [consume, hkind, hflush] at h

/-- All the ways in which a token is taken in, with the stacks afterwards. -/
inductive Takes (g : Grammar) (s : Stacks) (t : Token) : Stacks → Prop where
  | identifier : t.kind = .identifier → Takes g s t ⟨s.operators, t :: s.output⟩
  | opening : t.kind = .opening → Takes g s t ⟨t :: s.operators, s.output⟩
  | operation {s' : Stacks} {popped : List Token} : t.kind.isOperation = true →
      flush g t s.operators s.output = (s', none) → Moved s s' popped → s'.operators ≠ [] →
      Takes g s t ⟨t :: s'.operators, s'.output⟩
  | closing {s' : Stacks} {popped : List Token} : t.kind = .closing → Moved s s' popped →
      (∀ p ∈ popped, p.kind ≠ .start) → Takes g s t s'
  | finish {s' : Stacks} {popped : List Token} : t.kind = .finish → Moved s s' popped →
      s'.operators ≠ [] → Takes g s t s'

/-- **What a step of the engine does**: there are no other ways to take in a token. -/
theorem takes_of_consume {s s' : Stacks} {t : Token} (h : s.consume g t = (s', none)) :
    Takes g s t s' := by
  have hoperation (hk : t.kind.isOperation = true) : Takes g s t s' := by
    obtain ⟨s₁, hflush, rfl⟩ := exists_of_consume_operation hk h
    obtain ⟨popped, hmoved, hne⟩ := exists_of_flush hflush
    exact .operation hk hflush hmoved hne
  cases hk : t.kind with
  | identifier =>
    rw [consume_identifier hk, Prod.mk.injEq] at h
    rw [← h.1]
    exact .identifier hk
  | opening =>
    rw [consume_opening hk, Prod.mk.injEq] at h
    rw [← h.1]
    exact .opening hk
  | closing =>
    rw [consume_closing hk] at h
    obtain ⟨popped, hmoved, hpopped⟩ := exists_of_closeBracket h
    exact .closing hk hmoved hpopped
  | unary => exact hoperation (by rw [hk]; rfl)
  | binary => exact hoperation (by rw [hk]; rfl)
  | finish =>
    rw [consume_finish hk] at h
    obtain ⟨popped, hmoved, hne⟩ := exists_of_flush h
    exact .finish hk hmoved hne
  | start => simp [consume, hk] at h

/-! ## §4 Nothing is lost -/

/-- Operators that move to the output are still there. -/
theorem Moved.perm {s s' : Stacks} {popped : List Token} (h : Moved s s' popped) :
    (s'.operators ++ s'.output).Perm (s.operators ++ s.output) := by
  rw [h.1, h.2, ← List.append_assoc]
  apply List.Perm.append_right
  exact List.perm_append_comm.trans ((List.reverse_perm popped).append_right s'.operators)

/-- A token of the line that is taken in is added to the stacks unless it closes a bracket, and
no other token comes or goes. -/
theorem perm_consume {s s' : Stacks} {t : Token} (ht : t.kind ≠ .finish)
    (h : s.consume g t = (s', none)) :
    (s'.operators ++ s'.output).Perm
      ((s.operators ++ s.output) ++ [t].filter (·.kind ≠ .closing)) := by
  have hadd : ∀ us vs : List Token, (t :: (us ++ vs)).Perm ((us ++ vs) ++ [t]) := by
    intro us vs
    exact (List.perm_append_singleton t (us ++ vs)).symm
  cases takes_of_consume h with
  | identifier hk => simpa [hk] using List.perm_middle.trans (hadd _ _)
  | opening hk => simpa [hk] using hadd s.operators s.output
  | operation hop _ hmoved _ =>
    have hk : t.kind ≠ .closing := by
      intro hk
      simp [hk, Kind.isOperation] at hop
    simpa [hk] using (hmoved.perm.cons t).trans (hadd _ _)
  | closing hk hmoved _ => simpa [hk] using hmoved.perm
  | finish hk _ _ => exact absurd hk ht

/-- Nothing is taken back from the output. -/
theorem output_suffix_consume {s s' : Stacks} {t : Token} (h : s.consume g t = (s', none)) :
    s.output <:+ s'.output := by
  cases takes_of_consume h with
  | identifier => exact List.suffix_cons t s.output
  | opening => exact List.suffix_refl s.output
  | operation _ _ hmoved _ => exact ⟨_, hmoved.2.symm⟩
  | closing _ hmoved _ => exact ⟨_, hmoved.2.symm⟩
  | finish _ hmoved _ => exact ⟨_, hmoved.2.symm⟩

/-! ## §5 The stacks and the open brackets -/

/-- What waits above the beginning of the line: operations and open brackets. -/
def Waits (g : Grammar) (t : Token) : Prop :=
  g.Supports t ∧ (t.kind.isOperation = true ∨ t.kind = .opening)

/-- The operator stack, top first, holds the open brackets of the checker in their order, besides
them only operations, and the beginning of the line at its bottom. -/
def Lockstep (g : Grammar) (operators opened : List Token) : Prop :=
  ∃ above, operators = above ++ [.start] ∧ (∀ t ∈ above, Waits g t) ∧
    above.filter (·.kind = .opening) = opened

theorem lockstep_start : Lockstep g [.start] [] :=
  ⟨[], rfl, nofun, rfl⟩

theorem Waits.registers {t : Token} (h : Waits g t) : g.Registers t := by
  apply h.1.1.resolve_left
  intro hid
  rcases h.2 with hk | hk <;> simp [hid, Kind.isOperation] at hk

theorem Waits.exists_yields {p t : Token} (hp : Waits g p) (ht : g.Supports t)
    (hk : t.kind.isOperation = true) : ∃ v, g.yields p t = .ok v := by
  -- an operation is compared by the grammar, and a bracket never gives way
  rcases hp.2 with hop | hopen
  · exact Grammar.exists_yields hp.registers hop (ht.1.registers hk) hk
  · exact ⟨false, Grammar.yields_opening hp.registers hopen ht hk⟩

/-- The operations above the innermost open bracket, and what is below it. -/
theorem exists_split_opening {above rest : List Token} {o : Token}
    (hwaits : ∀ t ∈ above, Waits g t)
    (h : above.filter (·.kind = .opening) = o :: rest) :
    ∃ ops below, above = ops ++ o :: below ∧ (∀ p ∈ ops, p.kind.isOperation = true) ∧
      below.filter (·.kind = .opening) = rest := by
  induction above with
  | nil => simp at h
  | cons p above ih =>
    by_cases hk : p.kind = .opening
    · -- the innermost bracket is on top
      rw [List.filter_cons_of_pos (by simpa using hk), List.cons.injEq] at h
      exact ⟨[], above, by rw [h.1]; rfl, nofun, h.2⟩
    · rw [List.filter_cons_of_neg (by simpa using hk)] at h
      obtain ⟨ops, below, rfl, hops, hbelow⟩ := ih (fun t ht => hwaits t (by simp [ht])) h
      have hop := (hwaits p (by simp)).2.resolve_right hk
      exact ⟨p :: ops, below, rfl, by simpa [hop] using hops, hbelow⟩

/-- Where nothing is flushed but operations, the open brackets stay. -/
theorem Lockstep.flush_operation {t : Token} (ht : g.Supports t)
    (hk : t.kind.isOperation = true) {operators opened : List Token}
    (h : Lockstep g operators opened) (output : List Token) :
    ∃ s, flush g t operators output = (s, none) ∧ Lockstep g s.operators opened := by
  obtain ⟨above, rfl, hwaits, rfl⟩ := h
  obtain ⟨popped, kept, rfl, htight, hflush⟩ :=
    exists_flush fun p hp => (hwaits p hp).exists_yields ht hk
  -- a bracket would not have given way
  have hpopped : popped.filter (·.kind = .opening) = [] := by
    rw [List.filter_eq_nil_iff]
    intro p hp hopen
    have hno := Grammar.yields_opening (hwaits p (by simp [hp])).registers (by simpa using hopen)
      ht hk
    simp [htight p hp] at hno
  refine ⟨_, hflush .start [] output (Grammar.yields_start ht hk), kept, rfl, ?_, ?_⟩
  · intro q hq
    exact hwaits q (by simp [hq])
  · rw [List.filter_append, hpopped, List.nil_append]

theorem Lockstep.flush_finish {e : Token} (he : e.toLexeme = Token.finish.toLexeme)
    {operators : List Token}
    (h : Lockstep g operators []) (output : List Token) :
    ∃ ops, operators = ops ++ [.start] ∧
      flush g e operators output = (⟨[.start], ops.reverse ++ output⟩, none) := by
  obtain ⟨above, rfl, hwaits, hnone⟩ := h
  have hyields : ∀ p ∈ above, g.yields p e = .ok true := by
    intro p hp
    -- no bracket is open, so what waits is an operation
    have hk : ¬ p.kind = .opening := by simpa using List.filter_eq_nil_iff.mp hnone p hp
    have hop := (hwaits p hp).2.resolve_right hk
    obtain ⟨i, hi, hlt⟩ := (hwaits p hp).1.2 hop
    apply Grammar.yields_finish hi (by omega) _ he
    intro hstart
    simp [hstart, Kind.isOperation] at hop
  have hkind : e.kind = .finish := congrArg Lexeme.kind he
  refine ⟨above, rfl, ?_⟩
  rw [flush_append hyields, flush_stop (Grammar.yields_start_finish hkind)]

/-- **A token that passes the check is taken in**, and the stacks stay in step. -/
theorem Lockstep.consume {c c' : Checker} {t : Token} {s : Stacks}
    (h : Lockstep g s.operators c.opened) (hpass : c.Passes g t c')
    (ht : g.Supports t ∨ t.toLexeme = Token.finish.toLexeme) :
    ∃ s', s.consume g t = (s', none) ∧ Lockstep g s'.operators c'.opened := by
  have hsupports : t.kind ≠ .finish → g.Supports t := by
    intro hfin
    exact ht.resolve_right fun he => hfin (congrArg Lexeme.kind he)
  cases hpass with
  | name _ hk => exact ⟨_, consume_identifier hk s, h⟩
  | opening _ hk =>
    obtain ⟨above, hs, hwaits, hopened⟩ := h
    have hwait : Waits g t := ⟨hsupports (by simp [hk]), .inr hk⟩
    refine ⟨_, consume_opening hk s, t :: above, by rw [hs]; rfl, ?_, ?_⟩
    · simpa [hwait] using hwaits
    · simpa [hk] using hopened
  | signed _ hk | chain _ hk =>
    -- the operation goes on top of what does not give way
    have hop : t.kind.isOperation = true := by rw [hk]; rfl
    have hsup := hsupports (by simp [hk])
    obtain ⟨s', hflush, above, hs', hwaits, hopened⟩ := h.flush_operation hsup hop s.output
    refine ⟨_, consume_operation hop hflush, t :: above, by rw [hs']; rfl, ?_, ?_⟩
    · simpa [Waits, hsup, hop] using hwaits
    · simpa [hk] using hopened
  | closing _ ho hclose =>
    -- the innermost open bracket is the one that the checker has compared
    obtain ⟨above, hs, hwaits, hopened⟩ := h
    rw [ho] at hopened
    obtain ⟨ops, below, rfl, hops, hbelow⟩ := exists_split_opening hwaits hopened
    have hclosed := closeBracket_content hclose hops (below ++ [.start]) s.output
    rw [← List.cons_append, ← List.append_assoc, ← hs,
      ← consume_closing hclose.kind_closing] at hclosed
    exact ⟨_, hclosed, below, rfl, fun q hq => hwaits q (by simp [hq]), hbelow⟩
  | finish _ ho hk =>
    -- only the sentinel has this kind
    have he : t.toLexeme = Token.finish.toLexeme := by
      rcases ht with ⟨hid | hreg, -⟩ | he
      · simp [hk] at hid
      · rcases hreg.kind with hop | hkind | hkind <;> simp [hk, Kind.isOperation] at *
      · exact he
    rw [ho] at h
    obtain ⟨ops, -, hflush⟩ := h.flush_finish he s.output
    exact ⟨_, by rw [consume_finish hk, hflush], lockstep_start⟩

end Stacks

end Fixity
