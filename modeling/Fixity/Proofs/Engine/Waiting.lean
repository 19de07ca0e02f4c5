import Fixity.Proofs.Engine.Visited
import Fixity.Proofs.Parse.Soundness

/-!
# What waits on the operator stack

The operator stack and the open brackets of the checker are kept apart, and no one compares them.
Still they stay in step: the brackets on the stack are those that the checker knows, in their order
and each in its place. Between two brackets wait operations only, and none of them binds tighter
than one that waits above it. A flush looks at the top of the stack alone, so that this holds of
operations that are not neighbours needs that it carries over from one to the next, also between
operations of one rank.

## Main statements

- `bindsTighter_false_trans`: what is not tighter carries over
- `Ordered.consume`: taking in a token leaves the operations of each bracket in order
- `Engine.InStep.of_visited`: a run keeps to the invariant
- `waiting_of_visited`: what waits in every state of a fresh run
-/

namespace Fixity

open Stacks Checker

variable {g : Grammar}

/-! ## §1 Not tighter -/

namespace Grammar

theorem exists_ranks_of_bindsTighter {x y : Lexeme} {v : Bool} (h : g.bindsTighter x y = .ok v) :
    ∃ i j, g.rank? x = some i ∧ g.rank? y = some j := by
  unfold bindsTighter at h
  split at h
  · next i j hi hj => exact ⟨i, j, hi, hj⟩
  · simp at h

/-- Only a looser token is not tighter, or one of the same rank in a class that associates to the
right. -/
theorem bindsTighter_eq_false_iff {x y : Lexeme} {i j : Nat} (hx : g.rank? x = some i)
    (hy : g.rank? y = some j) :
    g.bindsTighter x y = .ok false ↔ j < i ∨ (i = j ∧ g.associativity? x = some .right) := by
  by_cases hij : i = j
  · -- between equals the associativity of the left one decides
    subst hij
    cases ha : g.associativity? x with
    | none => simp [bindsTighter, hx, hy, ha]
    | some a => cases a <;> simp [bindsTighter, hx, hy, ha]
  · rw [bindsTighter_of_ne hx hy hij]
    simp only [Except.ok.injEq, decide_eq_false_iff_not, hij, false_and, or_false]
    omega

/-- **What is not tighter carries over.** Where all three have one rank, it is the associativity of
the first that decides, against the second as against the third. -/
theorem bindsTighter_false_trans {x y z : Lexeme} (hxy : g.bindsTighter x y = .ok false)
    (hyz : g.bindsTighter y z = .ok false) : g.bindsTighter x z = .ok false := by
  obtain ⟨i, j, hi, hj⟩ := exists_ranks_of_bindsTighter hxy
  obtain ⟨-, k, -, hk⟩ := exists_ranks_of_bindsTighter hyz
  rw [bindsTighter_eq_false_iff hi hj] at hxy
  rw [bindsTighter_eq_false_iff hj hk] at hyz
  rw [bindsTighter_eq_false_iff hi hk]
  rcases hxy with hlt | ⟨rfl, ha⟩
  · left
    omega
  · rcases hyz with hlt | ⟨rfl, -⟩
    · exact .inl hlt
    · exact .inr ⟨rfl, ha⟩

end Grammar

/-! ## §2 Operations in order -/

namespace Stacks

variable {s s' : Stacks} {t : Token} {operators opened : List Token}

/-- Of two operations on the stack, top first, with no open bracket between them, the lower one
does not bind tighter. -/
def Ordered (g : Grammar) (operators : List Token) : Prop :=
  ∀ (above between below : List Token) (p q : Token),
    operators = above ++ q :: (between ++ p :: below) →
    p.kind.isOperation = true → q.kind.isOperation = true →
    (∀ o ∈ between, o.kind ≠ .opening) → g.bindsTighter p q = .ok false

theorem ordered_start : Ordered g [.start] := by
  intro above between below p q h
  have hlength := congrArg List.length h
  simp at hlength
  omega

/-- What is left when operators are sent out is in order. -/
theorem Ordered.of_append {sent : List Token} (h : Ordered g (sent ++ operators)) :
    Ordered g operators := by
  intro above between below p q hsplit
  apply h (sent ++ above) between below p q
  rw [hsplit, List.append_assoc]

/-- A bracket separates what comes above it from what waits below. -/
theorem Ordered.cons {t : Token} (h : Ordered g operators)
    (ht : t.kind.isOperation = true → ∀ (between below : List Token) (p : Token),
      operators = between ++ p :: below → p.kind.isOperation = true →
      (∀ o ∈ between, o.kind ≠ .opening) → g.bindsTighter p t = .ok false) :
    Ordered g (t :: operators) := by
  intro above between below p q hsplit hp hq hbetween
  cases above with
  | nil =>
    obtain ⟨rfl, hrest⟩ := List.cons.inj hsplit
    exact ht hq between below p hrest hp hbetween
  | cons a above =>
    obtain ⟨-, hrest⟩ := List.cons.inj hsplit
    exact h above between below p q hrest hp hq hbetween

/-- A flush that ends has come to an operator that does not give way. -/
theorem exists_top_of_flush {ops output : List Token} (h : flush g t ops output = (s, none)) :
    ∃ top rest, s.operators = top :: rest ∧ g.yields top t = .ok false := by
  induction ops generalizing output with
  | nil => simp [flush] at h
  | cons top ops ih =>
    rw [flush] at h
    split at h
    · simp at h
    · exact ih h
    · next hyields =>
      rw [Prod.mk.injEq] at h
      rw [← h.1]
      exact ⟨top, ops, rfl, hyields⟩

/-- What stays below an incoming operation is not tighter: not the top, where the flush has ended,
and so nothing that waits below the top in the same bracket. -/
theorem Ordered.cons_operation (h : Ordered g operators) (hlock : Lockstep g operators opened)
    (hk : t.kind.isOperation = true) {top : Token} {rest : List Token}
    (htop : operators = top :: rest) (hyields : g.yields top t = .ok false) :
    Ordered g (t :: operators) := by
  rw [Grammar.yields_operation hk] at hyields
  apply h.cons
  intro _ between below p hsplit hp hbetween
  rw [htop] at hsplit
  cases between with
  | nil =>
    obtain ⟨rfl, -⟩ := List.cons.inj hsplit
    exact hyields
  | cons b between =>
    obtain ⟨rfl, hrest⟩ := List.cons.inj hsplit
    -- the top is no bracket, and it is not the beginning of the line, as there is more below it
    have hop : top.kind.isOperation = true := by
      obtain ⟨above, habove, hwaits, -⟩ := hlock
      rw [htop] at habove
      cases above with
      | nil => simp [hrest] at habove
      | cons a above =>
        obtain ⟨rfl, -⟩ := List.cons.inj habove
        exact (hwaits top (by simp)).2.resolve_right (hbetween top (by simp))
    have hbelow := h [] between below p top (by rw [htop, hrest]; rfl) hp hop
      fun o ho => hbetween o (by simp [ho])
    exact Grammar.bindsTighter_false_trans hbelow hyields

/-- **Taking in a token leaves the operations of each bracket in order.** -/
theorem Ordered.consume (h : Ordered g s.operators) (hlock : Lockstep g s.operators opened)
    (ht : t.kind.isOperation = true → g.Supports t) (hstep : s.consume g t = (s', none)) :
    Ordered g s'.operators := by
  -- sending out operators leaves the others in order
  have hsent {s₁ : Stacks} {popped : List Token} (hmoved : Moved s s₁ popped) :
      Ordered g s₁.operators := (hmoved.1 ▸ h).of_append
  cases takes_of_consume hstep with
  | identifier => exact h
  | opening hk =>
    apply h.cons
    intro hop
    simp [hk, Kind.isOperation] at hop
  | @operation s₁ _ hk hflush hmoved _ =>
    obtain ⟨top, rest, htop, hyields⟩ := exists_top_of_flush hflush
    obtain ⟨s₂, hs₂, hlock₂⟩ := hlock.flush_operation (ht hk) hk s.output
    obtain rfl : s₁ = s₂ := (Prod.mk.inj (hflush.symm.trans hs₂)).1
    exact (hsent hmoved).cons_operation hlock₂ hk htop hyields
  | closing _ hmoved _ => exact hsent hmoved
  | finish _ hmoved _ => exact hsent hmoved

end Stacks

/-! ## §3 Runs -/

namespace Engine

/-- The operator stack is in step with the checker, and the operations of each bracket are in
order. -/
structure InStep (g : Grammar) (e : Engine) : Prop where
  lockstep : Lockstep g e.operators e.checker.opened
  ordered : Ordered g e.operators

theorem inStep_fresh {stream : Cursor Token} : InStep g { stream := stream } :=
  ⟨lockstep_start, ordered_start⟩

/-- A token that passes the check is taken in without giving up the invariant. -/
theorem InStep.advance {e e' : Engine} {t : Token} (h : InStep g e)
    (ht : g.Supports t ∨ t.toLexeme = Token.finish.toLexeme)
    (hcheck : e.checker.check g t = (e'.checker, none))
    (hstep : e.toStacks.consume g t = (e'.toStacks, none)) : InStep g e' := by
  have hsupports (hk : t.kind.isOperation = true) : g.Supports t := by
    apply ht.resolve_right
    intro hfinish
    rw [congrArg Lexeme.kind hfinish] at hk
    exact absurd hk (by decide)
  obtain ⟨s, hs, hlock⟩ := h.lockstep.consume (check_eq_none_iff.mp hcheck) ht
  obtain rfl : s = e'.toStacks := (Prod.mk.inj (hs.symm.trans hstep)).1
  exact ⟨hlock, h.ordered.consume h.lockstep hsupports hstep⟩

/-- **A run keeps to the invariant** in every state that it goes through. -/
theorem InStep.of_visited {e e' : Engine} {ts : List Token} {i : Nat} (h : InStep g e)
    (hts : ∀ t ∈ ts, g.Supports t ∨ t.toLexeme = Token.finish.toLexeme)
    (hvisited : (e.readAll g ts).1[i]? = some e') : InStep g e' := by
  induction ts generalizing e i with
  | nil =>
    obtain ⟨-, rfl⟩ : i = 0 ∧ e = e' := by simpa [readAll, List.getElem?_singleton] using hvisited
    exact h
  | cons t ts ih =>
    rcases visited_readAll_cons hvisited with ⟨-, rfl⟩ | ⟨j, next, -, -, hcheck, hstep, hrest⟩
    · exact h
    · exact ih (h.advance (hts t (by simp)) hcheck hstep) (fun u hu => hts u (by simp [hu])) hrest

/-- A state is gone through as soon as the tokens before it have passed the check and were taken
in. -/
theorem exists_visited {e : Engine} {c : Checker} {s : Stacks} {ts : List Token} {i : Nat}
    (hi : i ≤ ts.length) (hfeed : feed g e.checker (ts.take i) = (c, none))
    (hconsume : e.toStacks.consumeAll g (ts.take i) = (s, none)) :
    ∃ e', (e.readAll g ts).1[i]? = some e' := by
  induction ts generalizing e i with
  | nil =>
    obtain rfl : i = 0 := by simpa using hi
    exact ⟨e, rfl⟩
  | cons t ts ih =>
    cases i with
    | zero =>
      refine ⟨e, ?_⟩
      rw [readAll]
      split <;> rfl
    | succ i =>
      rw [List.take_succ_cons] at hfeed hconsume
      obtain ⟨d, hpass, hfeedRest⟩ := exists_of_feed_cons hfeed
      obtain ⟨s₁, hstep, hconsumeRest⟩ := exists_of_consumeAll_cons hconsume
      have hread : e.advance g t ts = (⟨s₁, ⟨ts⟩, d⟩, none) :=
        advance_eq_none_iff.mpr ⟨check_eq_none_iff.mpr hpass, hstep, rfl⟩
      rw [readAll_cons hread]
      exact ih (Nat.le_of_succ_le_succ hi) hfeedRest hconsumeRest

end Engine

/-- **What waits in every state of a fresh run**, which are those behind any number of tokens that
were checked and taken in. At the bottom of the operator stack is the beginning of the line, above
it are operations and open brackets only. The brackets are those that the checker takes for open, in
the same order and each in its place. Of two operations that no bracket separates the lower one does
not bind tighter. -/
theorem waiting_of_visited (few : g.classes.length < Grammar.bracketRank) (line : String) :
    ∃ tokens finish, g.tokenize line = .ok tokens ∧ finish.toLexeme = Token.finish.toLexeme ∧
      (∀ (i : Nat) (c : Checker) (s : Stacks), i ≤ (tokens ++ [finish]).length →
        feed g {} ((tokens ++ [finish]).take i) = (c, none) →
        consumeAll g {} ((tokens ++ [finish]).take i) = (s, none) →
        ∃ e, (g.runFresh tokens).visited[i]? = some e) ∧
      ∀ (i : Nat) (e : Engine), (g.runFresh tokens).visited[i]? = some e →
        feed g {} ((tokens ++ [finish]).take i) = (e.checker, none) ∧
        consumeAll g {} ((tokens ++ [finish]).take i) = (e.toStacks, none) ∧
        ∃ waiting, e.operators = waiting ++ [.start] ∧
          (∀ t ∈ waiting, t.kind.isOperation = true ∨ t.kind = .opening) ∧
          waiting.filter (·.kind = .opening) = e.checker.opened ∧
          ∀ (above between below : List Token) (p q : Token),
            waiting = above ++ q :: (between ++ p :: below) →
            p.kind.isOperation = true → q.kind.isOperation = true →
            (∀ o ∈ between, o.kind ≠ .opening) → g.bindsTighter p q = .ok false := by
  obtain ⟨tokens, htokens⟩ := Grammar.exists_tokenize g line
  obtain ⟨finish, hfinish, hvisited⟩ :=
    exists_visited_runFresh (g := g) (Grammar.tokenize_spans htokens)
  refine ⟨tokens, finish, htokens, hfinish, ?_, ?_⟩
  · intro i c s hi hfeed hconsume
    rw [hvisited]
    exact Engine.exists_visited hi hfeed hconsume
  · intro i e he
    rw [hvisited] at he
    obtain ⟨-, hfeed, hconsume⟩ := Engine.of_visited_readAll rfl he
    have hsupports := Engine.supports_append_finish
      (fun t ht => (Grammar.tokenize_knows htokens t ht).supports few) hfinish
    obtain ⟨⟨waiting, hwaiting, hwaits, hopened⟩, hordered⟩ :=
      Engine.inStep_fresh.of_visited hsupports he
    refine ⟨hfeed, hconsume, waiting, hwaiting, fun t ht => (hwaits t ht).2, hopened, ?_⟩
    -- below what waits there is the beginning of the line, which is no operation
    intro above between below p q hsplit
    apply hordered above between (below ++ [.start]) p q
    rw [hwaiting, hsplit]
    simp

/-- The tokens of the line `x + y * - - ( z`. Nothing gives way before its end. -/
def openSigns : List Token :=
  [⟨⟨.identifier, "x"⟩, 0, some ⟨0, 1, 1⟩⟩, ⟨⟨.binary, "+"⟩, 1, some ⟨2, 3, 1⟩⟩,
    ⟨⟨.identifier, "y"⟩, 2, some ⟨4, 5, 1⟩⟩, ⟨⟨.binary, "*"⟩, 3, some ⟨6, 7, 1⟩⟩,
    ⟨⟨.unary, "-"⟩, 4, some ⟨8, 9, 1⟩⟩, ⟨⟨.unary, "-"⟩, 5, some ⟨10, 11, 1⟩⟩,
    ⟨⟨.opening, "("⟩, 6, some ⟨12, 13, 1⟩⟩, ⟨⟨.identifier, "z"⟩, 7, some ⟨14, 15, 1⟩⟩]

/-- In the state behind the last token all operations wait, the last one on top of the product and
the sum, and the bracket is the one that the checker takes for open. -/
theorem waiting_of_visited_openSigns :
    ∃ e, (arithmetic.runFresh openSigns).visited[8]? = some e ∧
      e.operators = (openSigns.filter (·.kind ≠ .identifier)).reverse ++ [.start] ∧
      e.checker.opened = [⟨⟨.opening, "("⟩, 6, some ⟨12, 13, 1⟩⟩] ∧
      arithmetic.bindsTighter ⟨.binary, "+"⟩ ⟨.unary, "-"⟩ = .ok false := by
  have hline : arithmetic.tokenize "x + y * - - ( z" = .ok openSigns := by cbv
  obtain ⟨tokens, finish, htokens, -, -, hvisited⟩ :=
    waiting_of_visited (g := arithmetic) (by decide) "x + y * - - ( z"
  obtain rfl : openSigns = tokens := Except.ok.inj (hline.symm.trans htokens)
  obtain ⟨e, he, hoperators⟩ : ∃ e, (arithmetic.runFresh openSigns).visited[8]? = some e ∧
      e.operators = (openSigns.filter (·.kind ≠ .identifier)).reverse ++ [.start] := ⟨_, rfl, rfl⟩
  obtain ⟨-, -, waiting, hwaiting, -, hopened, hordered⟩ := hvisited 8 e he
  obtain rfl := List.append_cancel_right (hoperators.symm.trans hwaiting)
  refine ⟨e, he, hoperators, hopened.symm, ?_⟩
  -- between the sum and the last sign stand the product and a sign, and no bracket
  exact hordered [openSigns[6]] [openSigns[4], openSigns[3]] [] openSigns[1] openSigns[5]
    rfl rfl rfl (by decide)

end Fixity
