import Fixity.Proofs.Engine.Success

/-!
# The states that a run goes through

A run passes through a state before each token and, if nothing stops it, through one more behind
the last. The state with the number `i` is what the first `i` tokens make of the first state: the
checker has accepted them, the stacks have taken them in, and the others are still to come. So
what taking in tokens preserves holds in every state of a run.

## Main statements

- `of_visited_readAll`: how a state of a run came about
- `exists_of_visited`: in every state of a fresh run the beginning of the line is at the bottom
-/

namespace Fixity

open Stacks Checker

variable {g : Grammar}

namespace Engine

/-! ## §1 How a state came about -/

/-- The first state is the one that the run starts from. To the others the first token has led,
which was accepted and taken in. -/
theorem visited_readAll_cons {e e' : Engine} {t : Token} {ts : List Token} {i : Nat}
    (h : (e.readAll g (t :: ts)).1[i]? = some e') :
    (i = 0 ∧ e' = e) ∨ ∃ (j : Nat) (next : Engine), i = j + 1 ∧ next.stream.remaining = ts ∧
      e.checker.check g t = (next.checker, none) ∧
        e.toStacks.consume g t = (next.toStacks, none) ∧ (next.readAll g ts).1[j]? = some e' := by
  cases hadvance : e.advance g t ts with
  | mk next fault =>
    cases fault with
    | some f =>
      -- there is another state only if nothing was wrong with the token
      rw [readAll_cons_of_fault hadvance] at h
      left
      simpa [List.getElem?_singleton, eq_comm] using h
    | none =>
      rw [readAll_cons hadvance] at h
      cases i with
      | zero => exact .inl ⟨rfl, (Option.some.inj h).symm⟩
      | succ j =>
        obtain ⟨hcheck, hstep, hstream⟩ := advance_eq_none_iff.mp hadvance
        exact .inr ⟨j, next, rfl, hstream, hcheck, hstep, h⟩

/-- **How a state of a run came about**: by accepting and taking in the tokens before it. -/
theorem of_visited_readAll {e e' : Engine} {ts : List Token} {i : Nat}
    (hstream : e.stream.remaining = ts) (h : (e.readAll g ts).1[i]? = some e') :
    e'.stream.remaining = ts.drop i ∧ feed g e.checker (ts.take i) = (e'.checker, none) ∧
      e.toStacks.consumeAll g (ts.take i) = (e'.toStacks, none) := by
  induction ts generalizing e i with
  | nil =>
    obtain ⟨rfl, rfl⟩ : i = 0 ∧ e = e' := by simpa [readAll, List.getElem?_singleton] using h
    exact ⟨hstream, rfl, rfl⟩
  | cons t ts ih =>
    rcases visited_readAll_cons h with ⟨rfl, rfl⟩ | ⟨j, next, rfl, hnext, hcheck, hstep, hrest⟩
    · exact ⟨hstream, rfl, rfl⟩
    · obtain ⟨hremaining, hfeed, hconsume⟩ := ih hnext hrest
      refine ⟨hremaining, ?_, ?_⟩
      · rw [List.take_succ_cons, feed_cons_of_passes (check_eq_none_iff.mp hcheck), hfeed]
      · rw [List.take_succ_cons, consumeAll_cons hstep, hconsume]

end Engine

/-! ## §2 The states of a fresh run -/

/-- The states of a fresh run are those of reading the tokens and a sentinel. -/
theorem exists_visited_runFresh {tokens : List Token} (hspans : ∀ t ∈ tokens, t.Spanned) :
    ∃ e : Token, e.toLexeme = Token.finish.toLexeme ∧ (g.runFresh tokens).visited =
      (Engine.readAll g { stream := ⟨tokens ++ [e]⟩ } (tokens ++ [e])).1 := by
  obtain ⟨offset, hoffset⟩ := Engine.exists_endOffset? hspans
  refine ⟨Token.finish.placed (-1) (some ⟨offset, offset, 1⟩), rfl, ?_⟩
  rw [Grammar.runFresh, Engine.run, hoffset]
  -- however the run ends, its states are the same
  dsimp only
  split
  · rfl
  · split <;> rfl

/-- The sentinel of the end lets the beginning of the line stay at the bottom. -/
theorem Stacks.Seated.consume_finish {s s' : Stacks} {e : Token} (h : Seated g s.operators)
    (hk : e.kind = .finish) (hstep : s.consume g e = (s', none)) :
    Seated g s'.operators ∧ ∃ popped, Moved s s' popped := by
  cases takes_of_consume hstep with
  | finish _ hmoved hne => exact ⟨h.of_moved hmoved hne, _, hmoved⟩
  | identifier hk' | opening hk' | closing hk' _ _ => simp [hk] at hk'
  | operation hop _ _ _ => simp [hk, Kind.isOperation] at hop

/-- **Every state of a fresh run** is one behind some tokens of the line, or the one behind the
sentinel, which has sent out operators and nothing else. Always the beginning of the line is at
the bottom of the operator stack. -/
theorem exists_of_visited {tokens : List Token} (hknown : ∀ t ∈ tokens, g.Knows t)
    (hspans : ∀ t ∈ tokens, t.Spanned) :
    ∃ finish : Token, finish.toLexeme = Token.finish.toLexeme ∧
      ∀ (i : Nat) (e : Engine), (g.runFresh tokens).visited[i]? = some e →
        e.stream.remaining = (tokens ++ [finish]).drop i ∧ Seated g e.operators ∧
          ∃ (s : Stacks) (popped : List Token),
            consumeAll g {} (tokens.take i) = (s, none) ∧ Moved s e.toStacks popped := by
  obtain ⟨finish, hfinish, hvisited⟩ := exists_visited_runFresh (g := g) hspans
  refine ⟨finish, hfinish, ?_⟩
  intro i e he
  rw [hvisited] at he
  obtain ⟨hremaining, -, hconsume⟩ := Engine.of_visited_readAll rfl he
  refine ⟨hremaining, ?_⟩
  have htake : ∀ t ∈ tokens.take i, g.Knows t := fun t ht => hknown t (List.mem_of_mem_take ht)
  rw [List.take_append] at hconsume
  obtain ⟨s, hs, hend⟩ := exists_of_consumeAll_append hconsume
  have hseated : Seated g s.operators := Seated.consumeAll (s := {}) seated_start htake hs
  by_cases hi : i ≤ tokens.length
  · -- the sentinel is still to come
    rw [Nat.sub_eq_zero_of_le hi, List.take_zero, consumeAll, Prod.mk.injEq] at hend
    obtain ⟨rfl, -⟩ := hend
    exact ⟨hseated, _, [], hs, rfl, rfl⟩
  · obtain ⟨n, hn⟩ : ∃ n, i - tokens.length = n + 1 := ⟨i - tokens.length - 1, by omega⟩
    rw [hn, List.take_succ_cons, List.take_nil] at hend
    obtain ⟨s₁, hstep, hlast⟩ := exists_of_consumeAll_cons hend
    rw [consumeAll, Prod.mk.injEq] at hlast
    rw [hlast.1] at hstep
    obtain ⟨hlastSeated, popped, hmoved⟩ :=
      hseated.consume_finish (congrArg Lexeme.kind hfinish) hstep
    exact ⟨hlastSeated, s, popped, hs, hmoved⟩

end Fixity
