import Fixity.Proofs.Engine.Runs

/-!
# What the engine does not look at

The checker and the stacks compare lexemes, so they do the same with tokens in other places. And
the stacks put tokens on the output without looking at those that are there already, so what was
put out before makes no difference.

## Main statements

- `feed_map`, `consumeAll_map`: tokens in other places are checked and taken in the same way
- `consumeAll_above`: what was put out before stays below
- `exists_sent`: what a list sends out is the same above every output
-/

namespace Fixity

variable {g : Grammar} {f : Token → Token}

/-- The function puts tokens in other places at most. -/
def Relocates (f : Token → Token) : Prop :=
  ∀ t, (f t).toLexeme = t.toLexeme

theorem Relocates.kind (hf : Relocates f) (t : Token) : (f t).kind = t.kind :=
  congrArg Lexeme.kind (hf t)

/-- The token without a place. -/
def Token.unplaced (t : Token) : Token :=
  t.placed (-1) none

theorem relocates_unplaced : Relocates Token.unplaced :=
  fun _ => rfl

theorem map_unplaced_iff {ss ts : List Token} :
    ss.map Token.unplaced = ts.map Token.unplaced ↔
      ss.map (·.toLexeme) = ts.map (·.toLexeme) := by
  constructor
  · intro h
    simpa [Token.unplaced, Function.comp_def] using congrArg (List.map (·.toLexeme)) h
  · intro h
    have hplaced := congrArg (List.map fun x : Lexeme => (⟨x, -1, none⟩ : Token)) h
    rwa [List.map_map, List.map_map] at hplaced

/-! ## §1 The checker -/

/-- The same refusal of tokens in other places. -/
def Rejection.map (f : Token → Token) : Rejection → Rejection
  | misplaced last next => misplaced (f last) (f next)
  | unclosed o partner => unclosed (f o) partner
  | unopened c => unopened (f c)
  | mismatched o c expected => mismatched (f o) (f c) expected

namespace Checker

/-- The same checker with its tokens in other places. -/
def map (f : Token → Token) (c : Checker) : Checker :=
  ⟨f c.last, c.opened.map f⟩

theorem bracket_map (hf : Relocates f) (opened : List Token) (t : Token) :
    bracket g (opened.map f) (f t) =
      ((bracket g opened t).1.map f, (bracket g opened t).2.map (.map f)) := by
  simp only [bracket.eq_def, hf.kind]
  cases t.kind with
  | closing =>
    cases opened with
    | nil => rfl
    | cons o rest =>
      simp only [List.map_cons, hf o, hf t]
      split <;> rfl
  | opening => rfl
  | identifier => rfl
  | unary => rfl
  | binary => rfl
  | start => rfl
  | finish => rfl

theorem refusal?_map (hf : Relocates f) (last t : Token) (opened : List Token) :
    refusal? g (f last) (opened.map f) (f t) = (refusal? g last opened t).map (.map f) := by
  simp only [refusal?.eq_def, hf.kind]
  split
  · cases t.kind <;> cases opened <;> simp [Rejection.map, hf _]
  · rfl

theorem check_map (hf : Relocates f) (c : Checker) (t : Token) :
    (c.map f).check g (f t) = ((c.check g t).1.map f, (c.check g t).2.map (.map f)) := by
  simp only [check, map, bracket_map hf]
  cases bracket g c.opened t with
  | mk opened r =>
    cases r with
    | some r => rfl
    | none =>
      simp only [Option.map_none, refusal?_map hf]
      cases refusal? g c.last opened t <;> rfl

/-- **Tokens in other places are checked in the same way.** -/
theorem feed_map (hf : Relocates f) (c : Checker) (ts : List Token) :
    (c.map f).feed g (ts.map f) = ((c.feed g ts).1.map f, (c.feed g ts).2.map (.map f)) := by
  induction ts generalizing c with
  | nil => rfl
  | cons t ts ih =>
    simp only [List.map_cons, feed, check_map hf]
    cases c.check g t with
    | mk d r =>
      cases r with
      | some r => rfl
      | none => exact ih d

end Checker

/-! ## §2 The stacks -/

/-- The same failure with tokens in other places. -/
def EngineFault.map (f : Token → Token) : EngineFault → EngineFault
  | rejected r => rejected (r.map f)
  | emptyStack t => emptyStack (f t)
  | noOpening c => noOpening (f c)
  | mismatched o c => mismatched (f o) (f c)
  | unexpected t => unexpected (f t)
  | leftPending ts => leftPending (ts.map f)
  | noPrecedence fault => noPrecedence fault
  | inverted s => inverted s

theorem Relocates.yields (hf : Relocates f) (s t : Token) :
    g.yields (f s) (f t) = g.yields s t := by
  simp only [Grammar.yields, hf s, hf t]

namespace Stacks

/-- The same stacks with their tokens in other places. -/
def map (f : Token → Token) (s : Stacks) : Stacks :=
  ⟨s.operators.map f, s.output.map f⟩

theorem flush_map (hf : Relocates f) (t : Token) (ops output : List Token) :
    flush g (f t) (ops.map f) (output.map f) =
      ((flush g t ops output).1.map f, (flush g t ops output).2.map (.map f)) := by
  induction ops generalizing output with
  | nil => rfl
  | cons top ops ih =>
    simp only [List.map_cons, flush, hf.yields]
    cases g.yields top t with
    | error e => rfl
    | ok v =>
      cases v with
      | true => exact ih (top :: output)
      | false => rfl

theorem closeBracket_map (hf : Relocates f) (c : Token) (ops output : List Token) :
    closeBracket g (f c) (ops.map f) (output.map f) =
      ((closeBracket g c ops output).1.map f, (closeBracket g c ops output).2.map (.map f)) := by
  induction ops generalizing output with
  | nil => rfl
  | cons top ops ih =>
    simp only [List.map_cons, closeBracket, hf top, hf c]
    split
    · split <;> rfl
    · split
      · rfl
      · exact ih (top :: output)

theorem consume_map (hf : Relocates f) (s : Stacks) (t : Token) :
    (s.map f).consume g (f t) = ((s.consume g t).1.map f, (s.consume g t).2.map (.map f)) := by
  simp only [consume, hf.kind, map, closeBracket_map hf, flush_map hf]
  cases t.kind with
  | unary | binary =>
    -- the operation goes on top of what the flush has left
    cases flush g t s.operators s.output with
    | mk s₁ fault => cases fault <;> rfl
  | identifier | opening | closing | start | finish => rfl

/-- **Tokens in other places are taken in in the same way.** -/
theorem consumeAll_map (hf : Relocates f) (s : Stacks) (ts : List Token) :
    (s.map f).consumeAll g (ts.map f) =
      ((s.consumeAll g ts).1.map f, (s.consumeAll g ts).2.map (.map f)) := by
  induction ts generalizing s with
  | nil => rfl
  | cons t ts ih =>
    simp only [List.map_cons, consumeAll, consume_map hf]
    cases s.consume g t with
    | mk s₁ fault =>
      cases fault with
      | some fault => rfl
      | none => exact ih s₁

/-! ## §3 The output before -/

/-- The same stacks above what was put out before. -/
def above (s : Stacks) (before : List Token) : Stacks :=
  ⟨s.operators, s.output ++ before⟩

variable (before : List Token)

theorem flush_above (t : Token) (ops output : List Token) :
    flush g t ops (output ++ before) =
      ((flush g t ops output).1.above before, (flush g t ops output).2) := by
  induction ops generalizing output with
  | nil => rfl
  | cons top ops ih =>
    simp only [flush]
    cases g.yields top t with
    | error e => rfl
    | ok v =>
      cases v with
      | true => exact ih (top :: output)
      | false => rfl

theorem closeBracket_above (c : Token) (ops output : List Token) :
    closeBracket g c ops (output ++ before) =
      ((closeBracket g c ops output).1.above before, (closeBracket g c ops output).2) := by
  induction ops generalizing output with
  | nil => rfl
  | cons top ops ih =>
    simp only [closeBracket]
    split
    · split <;> rfl
    · split
      · rfl
      · exact ih (top :: output)

theorem consume_above (s : Stacks) (t : Token) :
    (s.above before).consume g t = ((s.consume g t).1.above before, (s.consume g t).2) := by
  simp only [consume, above, closeBracket_above, flush_above]
  cases t.kind with
  | unary | binary =>
    cases flush g t s.operators s.output with
    | mk s₁ fault => cases fault <;> rfl
  | identifier | opening | closing | start | finish => rfl

/-- **What was put out before makes no difference**, and stays below. -/
theorem consumeAll_above (s : Stacks) (ts : List Token) :
    (s.above before).consumeAll g ts =
      ((s.consumeAll g ts).1.above before, (s.consumeAll g ts).2) := by
  induction ts generalizing s with
  | nil => rfl
  | cons t ts ih =>
    simp only [consumeAll, consume_above]
    cases s.consume g t with
    | mk s₁ fault =>
      cases fault with
      | some fault => rfl
      | none => exact ih s₁

/-- What a list sends out is the same above every output. -/
theorem exists_sent {s' : Stacks} {operators output ts : List Token}
    (h : consumeAll g ⟨operators, output⟩ ts = (s', none)) :
    ∃ sent, s'.output = sent ++ output ∧
      ∀ output', consumeAll g ⟨operators, output'⟩ ts =
        (⟨s'.operators, sent ++ output'⟩, none) := by
  have habove := fun below => consumeAll_above (g := g) below ⟨operators, []⟩ ts
  -- read above nothing, the list leaves the same operators
  cases hread : consumeAll g ⟨operators, []⟩ ts with
  | mk s fault =>
    simp only [hread] at habove
    obtain ⟨rfl, rfl⟩ := Prod.mk.inj ((habove output).symm.trans h)
    exact ⟨s.output, rfl, habove⟩

end Stacks

end Fixity
