import Fixity.Parse
import Fixity.Proofs.Engine.Stacks

/-!
# Whole runs

A run checks every token and takes it in. While the stacks are in step with the checker nothing
but the check can fail, so a run fails exactly where the checker refuses a token. Otherwise it
ends with what the stacks make of the tokens, and behind that the operations that still waited.

## Main statements

- `Lockstep.consumeAll`: a list that passes the check is taken in
- `Engine.fault_readAll`: the failures of a run are those of the checker
- `runFresh_refused`: tokens that the checker refuses have no postfix order
- `runFresh_accepted`: the stacks determine the postfix order of tokens that it accepts
-/

namespace Fixity

variable {g : Grammar}

namespace Stacks

/-! ## §1 Taking in a list -/

/-- Takes in tokens one by one, up to the first failure. -/
def consumeAll (g : Grammar) (s : Stacks) : List Token → Stacks × Option EngineFault
  | [] => (s, none)
  | t :: ts =>
    match s.consume g t with
    | (s, some f) => (s, some f)
    | (s, none) => consumeAll g s ts

variable {s s' : Stacks} {t : Token} {ts us : List Token}

theorem consumeAll_cons (h : s.consume g t = (s', none)) (ts : List Token) :
    consumeAll g s (t :: ts) = consumeAll g s' ts := by
  rw [consumeAll, h]

theorem exists_of_consumeAll_cons (h : consumeAll g s (t :: ts) = (s', none)) :
    ∃ s₁, s.consume g t = (s₁, none) ∧ consumeAll g s₁ ts = (s', none) := by
  rw [consumeAll] at h
  cases hstep : s.consume g t with
  | mk s₁ f =>
    cases f with
    | some f => simp [hstep] at h
    | none => exact ⟨s₁, rfl, by simpa [hstep] using h⟩

theorem consumeAll_append (h : consumeAll g s ts = (s', none)) (us : List Token) :
    consumeAll g s (ts ++ us) = consumeAll g s' us := by
  induction ts generalizing s with
  | nil =>
    rw [consumeAll, Prod.mk.injEq] at h
    rw [List.nil_append, h.1]
  | cons t ts ih =>
    obtain ⟨s₁, hstep, hrest⟩ := exists_of_consumeAll_cons h
    rw [List.cons_append, consumeAll_cons hstep, ih hrest]

theorem exists_of_consumeAll_append (h : s.consumeAll g (ts ++ us) = (s', none)) :
    ∃ s₁, s.consumeAll g ts = (s₁, none) ∧ s₁.consumeAll g us = (s', none) := by
  induction ts generalizing s with
  | nil => exact ⟨s, rfl, h⟩
  | cons t ts ih =>
    obtain ⟨s₁, hstep, hrest⟩ := exists_of_consumeAll_cons h
    obtain ⟨s₂, hts, hus⟩ := ih hrest
    exact ⟨s₂, by rw [consumeAll_cons hstep, hts], hus⟩

theorem perm_consumeAll (hts : ∀ t ∈ ts, t.kind ≠ .finish) (h : s.consumeAll g ts = (s', none)) :
    (s'.operators ++ s'.output).Perm
      ((s.operators ++ s.output) ++ ts.filter (·.kind ≠ .closing)) := by
  induction ts generalizing s with
  | nil =>
    rw [consumeAll, Prod.mk.injEq] at h
    simp [h.1]
  | cons t ts ih =>
    obtain ⟨s₁, hstep, hrest⟩ := exists_of_consumeAll_cons h
    have hfirst := perm_consume (hts t (by simp)) hstep
    have hothers := ih (fun u hu => hts u (by simp [hu])) hrest
    -- the first token is added, then the others are
    refine hothers.trans ((hfirst.append_right _).trans ?_)
    rw [List.append_assoc, ← List.filter_append]
    exact .refl _

theorem output_suffix_consumeAll (h : s.consumeAll g ts = (s', none)) : s.output <:+ s'.output := by
  induction ts generalizing s with
  | nil =>
    rw [consumeAll, Prod.mk.injEq] at h
    rw [← h.1]
  | cons t ts ih =>
    obtain ⟨s₁, hstep, hrest⟩ := exists_of_consumeAll_cons h
    exact (output_suffix_consume hstep).trans (ih hrest)

/-- A list that passes the check is taken in, and the stacks stay in step. -/
theorem Lockstep.consumeAll {c c' : Checker} (h : Lockstep g s.operators c.opened)
    (hts : ∀ t ∈ ts, g.Supports t) (hfeed : c.feed g ts = (c', none)) :
    ∃ s', s.consumeAll g ts = (s', none) ∧ Lockstep g s'.operators c'.opened := by
  induction ts generalizing s c with
  | nil =>
    rw [Checker.feed, Prod.mk.injEq] at hfeed
    exact ⟨s, rfl, hfeed.1 ▸ h⟩
  | cons t ts ih =>
    obtain ⟨d, hpass, hothers⟩ := Checker.exists_of_feed_cons hfeed
    -- the invariant goes from one token to the next
    obtain ⟨s₁, hstep, hnext⟩ := h.consume hpass (.inl (hts t (by simp)))
    obtain ⟨s', hrest, hlast⟩ := ih hnext (fun u hu => hts u (by simp [hu])) hothers
    exact ⟨s', by rw [consumeAll_cons hstep, hrest], hlast⟩

end Stacks

open Stacks Checker

namespace Engine

/-! ## §2 The engine reads as the checker does -/

/-- A token is read if it passes the check and the stacks take it in. -/
theorem advance_eq_none_iff {e next : Engine} {t : Token} {rest : List Token} :
    e.advance g t rest = (next, none) ↔ e.checker.check g t = (next.checker, none) ∧
      e.toStacks.consume g t = (next.toStacks, none) ∧ next.stream.remaining = rest := by
  obtain ⟨s, ⟨remaining⟩, c⟩ := next
  rw [advance]
  cases e.checker.check g t with
  | mk c' r =>
    cases r with
    | some r => simp
    | none =>
      cases e.toStacks.consume g t with
      | mk s' f =>
        simp only [Prod.mk.injEq, Engine.mk.injEq, Cursor.mk.injEq, and_true]
        tauto

/-- Once a token is read, the others are read from the state that it leads to. -/
theorem readAll_cons {e next : Engine} {t : Token} {ts : List Token}
    (h : e.advance g t ts = (next, none)) :
    e.readAll g (t :: ts) = (e :: (next.readAll g ts).1, (next.readAll g ts).2) := by
  rw [readAll, h]

/-- Behind a failure nothing is read. -/
theorem readAll_cons_of_fault {e next : Engine} {t : Token} {ts : List Token} {f : EngineFault}
    (h : e.advance g t ts = (next, some f)) : e.readAll g (t :: ts) = ([e], next, some f) := by
  rw [readAll, h]

/-- A token that was read has passed the check and was taken in by the stacks. -/
theorem exists_of_readAll_cons {e : Engine} {t : Token} {ts : List Token}
    (h : (e.readAll g (t :: ts)).2.2 = none) :
    ∃ next : Engine, e.checker.check g t = (next.checker, none) ∧
      e.toStacks.consume g t = (next.toStacks, none) ∧
        (e.readAll g (t :: ts)).2.1 = (next.readAll g ts).2.1 ∧
          (next.readAll g ts).2.2 = none := by
  cases hadvance : e.advance g t ts with
  | mk next fault =>
    cases fault with
    | some f => simp [readAll_cons_of_fault hadvance] at h
    | none =>
      obtain ⟨hcheck, hstep, -⟩ := advance_eq_none_iff.mp hadvance
      rw [readAll_cons hadvance] at h ⊢
      exact ⟨next, hcheck, hstep, rfl, h⟩

/-- What the stacks hold when all tokens were read. -/
theorem consumeAll_readAll {e : Engine} {ts : List Token} (h : (e.readAll g ts).2.2 = none) :
    e.toStacks.consumeAll g ts = ((e.readAll g ts).2.1.toStacks, none) := by
  induction ts generalizing e with
  | nil => rfl
  | cons t ts ih =>
    obtain ⟨next, -, hstep, hlast, hrest⟩ := exists_of_readAll_cons h
    rw [consumeAll_cons hstep, ih hrest, hlast]

/-- What was read has passed the check. -/
theorem feed_readAll {e : Engine} {ts : List Token} (h : (e.readAll g ts).2.2 = none) :
    (feed g e.checker ts).2 = none := by
  induction ts generalizing e with
  | nil => rfl
  | cons t ts ih =>
    obtain ⟨next, hcheck, -, -, hrest⟩ := exists_of_readAll_cons h
    rw [feed, hcheck]
    exact ih hrest

/-- **Nothing but the check fails**: a run stops where the checker refuses a token. -/
theorem fault_readAll {e : Engine} {ts : List Token}
    (hts : ∀ t ∈ ts, g.Supports t ∨ t.toLexeme = Token.finish.toLexeme)
    (hlock : Lockstep g e.operators e.checker.opened) :
    (e.readAll g ts).2.2 = (feed g e.checker ts).2.map .rejected := by
  induction ts generalizing e with
  | nil => rfl
  | cons t ts ih =>
    cases hcheck : e.checker.check g t with
    | mk c r =>
      cases r with
      | some r =>
        have hrefused : e.advance g t ts = ({ e with checker := c }, some (.rejected r)) := by
          rw [advance, hcheck]
        rw [readAll_cons_of_fault hrefused, feed, hcheck]
        rfl
      | none =>
        -- the stacks follow the checker, so the token is taken in
        obtain ⟨s, hstep, hnext⟩ :=
          hlock.consume (check_eq_none_iff.mp hcheck) (hts t (by simp))
        have hread : e.advance g t ts = (⟨s, ⟨ts⟩, c⟩, none) :=
          advance_eq_none_iff.mpr ⟨hcheck, hstep, rfl⟩
        rw [readAll_cons hread, feed, hcheck]
        exact ih (fun t ht => hts t (by simp [ht])) hnext

theorem supports_append_finish {ts : List Token} (h : ∀ t ∈ ts, g.Supports t) {e : Token}
    (he : e.toLexeme = Token.finish.toLexeme) :
    ∀ t ∈ ts ++ [e], g.Supports t ∨ t.toLexeme = Token.finish.toLexeme := by
  intro t ht
  rcases List.mem_append.mp ht with ht | ht
  · exact .inl (h t ht)
  · rw [List.mem_singleton.mp ht]
    exact .inr he

/-- Only a last token that takes up less than nothing leaves the end of the line unknown. -/
theorem exists_endOffset? {ts : List Token} (h : ∀ t ∈ ts, t.Spanned) :
    ∃ offset, endOffset? ts = .ok offset := by
  -- an empty line ends where it begins
  cases hlast : ts.getLast? with
  | none => exact ⟨0, by simp [endOffset?, hlast]⟩
  | some t =>
    obtain ⟨s, hs, hle⟩ := h t (List.mem_of_getLast? hlast)
    have hlength : s.length? = some (s.stop - s.start).toNat := by
      rw [Span.length?, if_neg (by omega)]
    simp only [endOffset?, hlast, Option.bind_some, hs, hlength]
    split <;> simp_all

/-- What stops a fresh engine on its way through the tokens and the sentinel. -/
def stop? (g : Grammar) (tokens : List Token) (e : Token) : Option EngineFault :=
  (readAll g { stream := ⟨tokens ++ [e]⟩ } (tokens ++ [e])).2.2

theorem stop?_eq {tokens : List Token} (h : ∀ t ∈ tokens, g.Supports t) {e : Token}
    (he : e.toLexeme = Token.finish.toLexeme) :
    stop? g tokens e = (feed g {} (tokens ++ [e])).2.map .rejected :=
  fault_readAll (supports_append_finish h he) lockstep_start

end Engine

/-! ## §3 The result of a run -/

variable {tokens : List Token}

/-- The sentinel of the end of a line: it stands where the line ends, and takes up nothing. -/
structure EndsLine (tokens : List Token) (e : Token) : Prop where
  lexeme : e.toLexeme = Token.finish.toLexeme
  span : ∃ offset, Engine.endOffset? tokens = .ok offset ∧ e.span = some ⟨offset, offset, 1⟩

theorem EndsLine.spanned {e : Token} (h : EndsLine tokens e) : e.Spanned := by
  obtain ⟨offset, -, hspan⟩ := h.span
  exact ⟨_, hspan, Int.le_refl offset⟩

/-- A fresh run reads the tokens and a sentinel, which is the same under every grammar. If nothing
stops it, and only the beginning of the line is left, its result is what the stacks have put out. -/
theorem exists_sentinel (hspans : ∀ t ∈ tokens, t.Spanned) :
    ∃ e : Token, EndsLine tokens e ∧ ∀ g : Grammar,
      (∀ f, Engine.stop? g tokens e = some f → (g.runFresh tokens).result = .error f) ∧
        (Engine.stop? g tokens e = none →
          ∀ out, consumeAll g {} (tokens ++ [e]) = (⟨[.start], out⟩, none) →
            (g.runFresh tokens).result = .ok out.reverse) := by
  obtain ⟨offset, hoffset⟩ := Engine.exists_endOffset? hspans
  refine ⟨Token.finish.placed (-1) (some ⟨offset, offset, 1⟩), ⟨rfl, offset, hoffset, rfl⟩,
    fun g => ⟨?_, ?_⟩⟩
  · intro f hstop
    unfold Engine.stop? at hstop
    rw [Grammar.runFresh, Engine.run, hoffset]
    simp only [Checker.refresh_eq, hstop]
  · intro hstop out hread
    -- the last state of the run is where the stacks end
    have hlast := (Engine.consumeAll_readAll hstop).symm.trans hread
    rw [Prod.mk.injEq] at hlast
    unfold Engine.stop? at hstop
    rw [Grammar.runFresh, Engine.run, hoffset]
    simp only [Checker.refresh_eq, hstop, hlast.1]
    simp

/-- A list that the checker refuses has no postfix order, for the reason that the checker gives
when it is fed the tokens and the end of the line. -/
theorem runFresh_refused (htokens : ∀ t ∈ tokens, g.Supports t)
    (hspans : ∀ t ∈ tokens, t.Spanned) (h : ¬ Accepts g tokens) :
    ∃ e r, EndsLine tokens e ∧ (feed g {} (tokens ++ [e])).2 = some r ∧
      (g.runFresh tokens).result = .error (.rejected r) := by
  obtain ⟨e, he, hsentinel⟩ := exists_sentinel hspans
  obtain ⟨hstopped, -⟩ := hsentinel g
  have hstop := Engine.stop?_eq htokens he.lexeme
  -- some token is refused, and the run stops there
  cases hfeed : (feed g {} (tokens ++ [e])).2 with
  | none => exact absurd ((feed_append_finish (congrArg Lexeme.kind he.lexeme)).mp hfeed) h
  | some r =>
    rw [hfeed, Option.map_some] at hstop
    exact ⟨e, r, he, hfeed, hstopped _ hstop⟩

/-- The place of the end is not always asked for. -/
theorem runFresh_rejected (htokens : ∀ t ∈ tokens, g.Supports t)
    (hspans : ∀ t ∈ tokens, t.Spanned) (h : ¬ Accepts g tokens) :
    ∃ e r, e.toLexeme = Token.finish.toLexeme ∧ (feed g {} (tokens ++ [e])).2 = some r ∧
      (g.runFresh tokens).result = .error (.rejected r) := by
  obtain ⟨e, r, he, hrefused⟩ := runFresh_refused htokens hspans h
  exact ⟨e, r, he.lexeme, hrefused⟩

/-- **The stacks determine the postfix order** of a list that the checker accepts: it is what
they put out, and behind that the operations that wait when the line ends. -/
theorem runFresh_accepted (htokens : ∀ t ∈ tokens, g.Supports t)
    (hspans : ∀ t ∈ tokens, t.Spanned) (h : Accepts g tokens) {ops out : List Token}
    (hread : consumeAll g {} tokens = (⟨ops ++ [.start], out⟩, none)) :
    (g.runFresh tokens).result = .ok (out.reverse ++ ops) := by
  obtain ⟨e, ⟨he, -⟩, hsentinel⟩ := exists_sentinel hspans
  obtain ⟨-, hresult⟩ := hsentinel g
  have hkind : e.kind = .finish := congrArg Lexeme.kind he
  have hstop := Engine.stop?_eq htokens he
  rw [(feed_append_finish hkind).mpr h, Option.map_none] at hstop
  -- no bracket is open when the tokens are read
  obtain ⟨c, hfeed, hend⟩ := feed_append_eq_none h
  obtain ⟨s, hs, hlock⟩ := lockstep_start.consumeAll (s := {}) htokens hfeed
  obtain rfl : s = ⟨ops ++ [.start], out⟩ := (Prod.mk.inj (hs.symm.trans hread)).1
  rw [(completes_nil.mp hend).2] at hlock
  -- the sentinel sends out what still waits
  obtain ⟨waiting, hwaiting, hflush⟩ := hlock.flush_finish he out
  obtain rfl : ops = waiting := List.append_cancel_right hwaiting
  have hall : consumeAll g {} (tokens ++ [e]) = (⟨[.start], ops.reverse ++ out⟩, none) := by
    rw [consumeAll_append hread, consumeAll, consume_finish hkind, hflush]
    rfl
  rw [hresult hstop _ hall]
  simp

end Fixity
