import Fixity.Proofs.Engine.Congruence

/-!
# Runs over tokens without spans

The engine looks at the span of one token only, the last of a line, to put the sentinel of the end
behind it. It compares nothing with this place. So two lists whose tokens differ in their spans only
lead through the same states, but for these spans, and a run over the one comes to the same end as
a run over the other.

## Main statements

- `Engine.readAll_map`: tokens in other places lead through the same states
- `runFresh_unspanned`: what a run comes to depends on the spans in the spans only
-/

namespace Fixity

open Stacks

variable {g : Grammar} {f : Token → Token}

/-- The token with its index, but without its span. -/
def Token.unspanned (t : Token) : Token :=
  t.placed t.index none

theorem relocates_unspanned : Relocates Token.unspanned :=
  fun _ => rfl

namespace Engine

/-! ## §1 The engine in other places -/

/-- The same engine with all its tokens in other places. -/
def map (f : Token → Token) (e : Engine) : Engine where
  toStacks := e.toStacks.map f
  stream := ⟨e.stream.remaining.map f⟩
  checker := e.checker.map f

theorem advance_map (hf : Relocates f) (e : Engine) (t : Token) (rest : List Token) :
    (e.map f).advance g (f t) (rest.map f) =
      ((e.advance g t rest).1.map f, (e.advance g t rest).2.map (.map f)) := by
  have hcheck : (e.map f).checker.check g (f t) = _ := Checker.check_map hf e.checker t
  have hstep : (e.map f).toStacks.consume g (f t) = _ := consume_map hf e.toStacks t
  unfold advance
  rw [hcheck, hstep]
  cases e.checker.check g t with
  | mk checker refused =>
    cases refused with
    | some r => rfl
    | none => rfl

/-- **Tokens in other places lead through the same states**, up to the same failure. -/
theorem readAll_map (hf : Relocates f) (e : Engine) (ts : List Token) :
    (e.map f).readAll g (ts.map f) =
      ((e.readAll g ts).1.map (map f), (e.readAll g ts).2.1.map f,
        (e.readAll g ts).2.2.map (.map f)) := by
  induction ts generalizing e with
  | nil => rfl
  | cons t ts ih =>
    rw [List.map_cons, readAll, readAll, advance_map hf]
    cases e.advance g t ts with
    | mk next fault =>
      cases fault with
      | some fault => rfl
      | none =>
        simp only [Option.map_none]
        rw [ih next]
        rfl

/-! ## §2 What a run comes to -/

/-- What a run comes to: the failure that has stopped it, or else the output, unless operators are
left. -/
def outcome (last : Engine) : Option EngineFault → Except EngineFault (List Token)
  | some fault => .error fault
  | none =>
    if last.operators.map (·.toLexeme) = [Token.start.toLexeme] then .ok last.output.reverse
    else .error (.leftPending last.operators.reverse.tail)

/-- A fresh run reads the tokens and a sentinel, of which only the span depends on the tokens. -/
theorem exists_outcome {tokens : List Token} (h : ∀ t ∈ tokens, t.Spanned) :
    ∃ e : Token, e.unspanned = .finish ∧
      let read := readAll g { stream := ⟨tokens ++ [e]⟩ } (tokens ++ [e])
      (g.runFresh tokens).result = outcome read.2.1 read.2.2 := by
  obtain ⟨offset, hoffset⟩ := exists_endOffset? h
  refine ⟨Token.finish.placed (-1) (some ⟨offset, offset, 1⟩), rfl, ?_⟩
  unfold Grammar.runFresh run
  rw [hoffset]
  rcases hread : readAll g _ (tokens ++ [Token.finish.placed (-1) (some ⟨offset, offset, 1⟩)])
    with ⟨visited, last, fault⟩
  simp only [Checker.refresh_eq, hread]
  cases fault with
  | some fault => rfl
  | none =>
    unfold outcome
    dsimp only
    split
    · rfl
    · rfl

/-- The same result of a run with all its tokens in other places. -/
def relocate (f : Token → Token) (result : Except EngineFault (List Token)) :
    Except EngineFault (List Token) :=
  (result.map (List.map f)).mapError (.map f)

theorem outcome_map (hf : Relocates f) (last : Engine) (fault : Option EngineFault) :
    outcome (last.map f) (fault.map (.map f)) = relocate f (outcome last fault) := by
  cases fault with
  | some fault => rfl
  | none =>
    have hlexemes : (last.map f).operators.map (·.toLexeme) =
        last.operators.map (·.toLexeme) := by
      change (last.operators.map f).map _ = _
      rw [List.map_map]
      exact List.map_congr_left fun t _ => hf t
    unfold outcome
    simp only [Option.map_none, hlexemes]
    split
    · change Except.ok (last.output.map f).reverse = .ok (last.output.reverse.map f)
      rw [List.map_reverse]
    · change Except.error (EngineFault.leftPending (last.operators.map f).reverse.tail) =
        .error (.leftPending (last.operators.reverse.tail.map f))
      rw [← List.map_reverse, List.map_tail]

end Engine

/-! ## §3 Lists that differ in their spans -/

/-- **What a run comes to depends on the spans in the spans only.** -/
theorem runFresh_unspanned {ss ts : List Token} (hss : ∀ t ∈ ss, t.Spanned)
    (hts : ∀ t ∈ ts, t.Spanned) (h : ss.map Token.unspanned = ts.map Token.unspanned) :
    Engine.relocate Token.unspanned (g.runFresh ss).result =
      Engine.relocate Token.unspanned (g.runFresh ts).result := by
  obtain ⟨d, hd, hresult⟩ := Engine.exists_outcome (g := g) hss
  obtain ⟨e, he, hresult'⟩ := Engine.exists_outcome (g := g) hts
  have hstream : (ss ++ [d]).map Token.unspanned = (ts ++ [e]).map Token.unspanned := by
    rw [List.map_append, List.map_append, List.map_singleton, List.map_singleton, h, hd, he]
  -- without their spans both lists are read by the same engine
  have hread := Engine.readAll_map (g := g) relocates_unspanned { stream := ⟨ss ++ [d]⟩ }
    (ss ++ [d])
  have hready : Engine.map Token.unspanned { stream := ⟨ss ++ [d]⟩ } =
      Engine.map Token.unspanned { stream := ⟨ts ++ [e]⟩ } := by
    unfold Engine.map
    rw [hstream]
  rw [hready, hstream, Engine.readAll_map relocates_unspanned] at hread
  obtain ⟨-, hlast, hfault⟩ := (by simpa only [Prod.mk.injEq] using hread : _ ∧ _ ∧ _)
  rw [hresult, hresult', ← Engine.outcome_map relocates_unspanned,
    ← Engine.outcome_map relocates_unspanned, hlast, hfault]

end Fixity
