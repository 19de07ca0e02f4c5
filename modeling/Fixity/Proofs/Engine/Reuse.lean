import Fixity.Proofs.Parse.Soundness

/-!
# One engine for several lines

Nothing is reset between the runs of an engine: what a failed run leaves on the stacks is there when
the next one begins. A run can only end well if the beginning of the line is on the operator stack,
and no token puts it there. When a run ends well it is taken off. So of all runs of one engine at most
one ends well, whatever the tokens are and whatever the engine held at first.

## Main statements

- `subset_consume`: nothing but the token is new on the stacks
- `Spent.consume`: no token puts the beginning of the line on the operator stack
- `run_of_spent`: an engine without it fails, and stays without it
- `spent_of_run`: an engine that has put tokens in postfix order is without it
- `completes_once`: at most one run of an engine ends well, and it puts out no token of a line that
  comes after it
-/

namespace Fixity

variable {g : Grammar}

namespace Stacks

variable {s : Stacks} {t : Token}

/-! ## §1 What a token leaves on the stacks -/

/-- All tokens on the two stacks. -/
def held (s : Stacks) : List Token :=
  s.operators ++ s.output

theorem held_flush (ops output : List Token) : (flush g t ops output).1.held ⊆ ops ++ output := by
  induction ops generalizing output with
  | nil => exact List.Subset.refl _
  | cons top ops ih =>
    rw [flush]
    split
    · exact List.Subset.refl _
    · -- the top has changed sides
      intro x hx
      have hrest : x ∈ ops ++ top :: output := ih (top :: output) hx
      simp only [List.mem_append, List.mem_cons] at hrest ⊢
      tauto
    · exact List.Subset.refl _

theorem held_closeBracket (ops output : List Token) :
    (closeBracket g t ops output).1.held ⊆ ops ++ output := by
  induction ops generalizing output with
  | nil => exact List.Subset.refl _
  | cons top ops ih =>
    have hswap : ops ++ top :: output ⊆ (top :: ops) ++ output := by
      intro x hx
      simp only [List.mem_append, List.mem_cons] at hx ⊢
      tauto
    rw [closeBracket]
    split
    · split
      · exact hswap
      · exact List.subset_cons_self top (ops ++ output)
    · split
      · exact List.Subset.refl _
      · exact List.Subset.trans (ih (top :: output)) hswap

/-- An operation waits above what the flush has left, unless the flush has failed. -/
theorem stacks_consume_operation (hk : t.kind.isOperation = true) :
    (s.consume g t).1 = (flush g t s.operators s.output).1 ∨
      (s.consume g t).1 = ⟨t :: (flush g t s.operators s.output).1.operators,
        (flush g t s.operators s.output).1.output⟩ := by
  cases hflush : flush g t s.operators s.output with
  | mk s' f =>
    cases f with
    | none =>
      rw [consume_operation hk hflush]
      exact .inr rfl
    | some f =>
      left
      cases hkind : t.kind <;> simp [hkind, Kind.isOperation] at hk <;>
        simp [consume, hkind, hflush]

/-- The token itself, unless it is a sentinel: a sentinel is put on neither stack. -/
def entering (t : Token) : List Token :=
  if t.kind.isSentinel then [] else [t]

theorem mem_entering {x : Token} (h : x ∈ entering t) :
    x = t ∧ t.kind ≠ .start ∧ t.kind ≠ .finish := by
  unfold entering at h
  split at h
  · simp at h
  · next hk =>
    refine ⟨List.mem_singleton.mp h, ?_, ?_⟩
    · intro hstart
      simp [hstart, Kind.isSentinel] at hk
    · intro hfinish
      simp [hfinish, Kind.isSentinel] at hk

/-- **Nothing but the token is new on the stacks**, whether it is taken in or not: neither on the
operator stack nor on both together. -/
theorem subset_consume (s : Stacks) (g : Grammar) (t : Token) :
    (s.consume g t).1.operators ⊆ entering t ++ s.operators ∧
      (s.consume g t).1.held ⊆ entering t ++ s.held := by
  have hkept : (flush g t s.operators s.output).1.operators ⊆ s.operators :=
    (operators_flush s.operators s.output).subset
  have hheld : (flush g t s.operators s.output).1.held ⊆ s.held :=
    held_flush s.operators s.output
  have hoperation (hk : t.kind.isOperation = true) (hin : entering t = [t]) :
      (s.consume g t).1.operators ⊆ entering t ++ s.operators ∧
        (s.consume g t).1.held ⊆ entering t ++ s.held := by
    rw [hin]
    rcases stacks_consume_operation (g := g) (s := s) hk with hs | hs
    · rw [hs]
      exact ⟨List.subset_cons_of_subset t hkept, List.subset_cons_of_subset t hheld⟩
    · rw [hs]
      exact ⟨List.cons_subset_cons t hkept, List.cons_subset_cons t hheld⟩
  cases hk : t.kind with
  | identifier =>
    have hin : entering t = [t] := by simp [entering, hk, Kind.isSentinel]
    rw [consume_identifier hk, hin]
    refine ⟨List.subset_cons_self t s.operators, ?_⟩
    intro x hx
    simp only [held, List.mem_append, List.mem_cons, List.not_mem_nil] at hx ⊢
    tauto
  | opening =>
    have hin : entering t = [t] := by simp [entering, hk, Kind.isSentinel]
    rw [consume_opening hk, hin]
    exact ⟨List.Subset.refl _, List.Subset.refl _⟩
  | closing =>
    rw [consume_closing hk]
    exact ⟨List.subset_append_of_subset_right _ (operators_closeBracket _ _).subset,
      List.subset_append_of_subset_right _ (held_closeBracket _ _)⟩
  | unary | binary =>
    exact hoperation (by rw [hk]; rfl) (by simp [entering, hk, Kind.isSentinel])
  | finish =>
    rw [consume_finish hk]
    exact ⟨List.subset_append_of_subset_right _ hkept, List.subset_append_of_subset_right _ hheld⟩
  | start =>
    have hsame : (s.consume g t).1 = s := by simp [consume, hk]
    rw [hsame]
    exact ⟨List.subset_append_right _ _, List.subset_append_right _ _⟩

/-- The beginning of the line does not wait. -/
def Spent (s : Stacks) : Prop :=
  ∀ p ∈ s.operators, p.kind ≠ .start

/-- **No token puts the beginning of the line on the operator stack.** -/
theorem Spent.consume (h : Spent s) (g : Grammar) (t : Token) : Spent (s.consume g t).1 := by
  intro p hp
  rcases List.mem_append.mp ((subset_consume s g t).1 hp) with hp | hp
  · obtain ⟨hpt, hk, -⟩ := mem_entering hp
    rw [hpt]
    exact hk
  · exact h p hp

end Stacks

namespace Engine

open Stacks

variable {e : Engine} {tokens : List Token}

/-! ## §2 What a run leaves on the stacks -/

/-- What every token of the stream preserves, reading it preserves, wherever it stops. -/
theorem readAll_preserves {P : Stacks → Prop} {stream : List Token}
    (hstep : ∀ t ∈ stream, ∀ s : Stacks, P s → P (s.consume g t).1) (h : P e.toStacks) :
    P (e.readAll g stream).2.1.toStacks := by
  induction stream generalizing e with
  | nil => exact h
  | cons t rest ih =>
    obtain ⟨htoken, hrest⟩ := List.forall_mem_cons.mp hstep
    have hnext : P (e.advance g t rest).1.toStacks := by
      rw [advance]
      split
      · -- a token that is refused does not come to the stacks
        exact h
      · exact htoken e.toStacks h
    rw [readAll]
    split
    · next next f hadvance =>
      rw [hadvance] at hnext
      exact hnext
    · next next hadvance =>
      rw [hadvance] at hnext
      exact ih hrest hnext

/-- **How a run ends**: with a failure, and then the stacks are left as they are; or with the
beginning of the line alone on the operator stack, and then it is taken off. Before that the stacks
have every property that no token and no end of a line takes from them. -/
theorem exists_of_run (tokens : List Token) {P : Stacks → Prop}
    (hstep : ∀ t : Token, t ∈ tokens ∨ t.kind = .finish → ∀ s : Stacks, P s → P (s.consume g t).1)
    (h : P e.toStacks) :
    ∃ s : Stacks, P s ∧
      ((e.run g tokens).engine.toStacks = s ∧ (∃ f, (e.run g tokens).result = .error f) ∨
        s.operators.map (·.toLexeme) = [Token.start.toLexeme] ∧
          (e.run g tokens).engine.toStacks = { s with operators := [] } ∧
          (e.run g tokens).result = .ok s.output.reverse) := by
  have hread : ∀ (ready : Engine) (offset : Int), P ready.toStacks →
      P (ready.readAll g
        (tokens ++ [Token.finish.placed (-1) (some ⟨offset, offset, 1⟩)])).2.1.toStacks := by
    intro ready offset hready
    apply readAll_preserves _ hready
    intro t ht
    apply hstep t
    rcases List.mem_append.mp ht with ht | ht
    · exact .inl ht
    · exact .inr (congrArg (·.kind) (List.mem_singleton.mp ht))
  rw [run]
  split
  · -- the line has no end, so nothing is read
    exact ⟨e.toStacks, h, .inl ⟨rfl, _, rfl⟩⟩
  · next offset _ =>
    have hlast := hread ⟨e.toStacks,
      ⟨tokens ++ [Token.finish.placed (-1) (some ⟨offset, offset, 1⟩)]⟩, e.checker.refresh⟩ offset h
    refine ⟨_, hlast, ?_⟩
    dsimp only
    split
    · exact .inl ⟨rfl, _, rfl⟩
    · split
      · next hstart => exact .inr ⟨hstart, rfl, rfl⟩
      · exact .inl ⟨rfl, _, rfl⟩

/-- **Without the beginning of the line a run fails**, and it does not come back. -/
theorem run_of_spent (h : Spent e.toStacks) (tokens : List Token) :
    (∃ f, (e.run g tokens).result = .error f) ∧ Spent (e.run g tokens).engine.toStacks := by
  obtain ⟨s, hs, ⟨hengine, hfailed⟩ | ⟨hstart, -, -⟩⟩ :=
    exists_of_run (g := g) tokens (fun t _ s hs => hs.consume g t) h
  · refine ⟨hfailed, ?_⟩
    rw [hengine]
    exact hs
  · -- the operator on the stack would have the kind of the beginning
    exfalso
    obtain ⟨p, hp, hlexeme⟩ : ∃ p ∈ s.operators, p.toLexeme = Token.start.toLexeme := by
      apply List.mem_map.mp
      rw [hstart]
      exact List.mem_singleton_self Token.start.toLexeme
    exact hs p hp (congrArg Lexeme.kind hlexeme)

/-- **A run that ends well takes the beginning of the line away.** -/
theorem spent_of_run {out : List Token} (h : (e.run g tokens).result = .ok out) :
    Spent (e.run g tokens).engine.toStacks := by
  obtain ⟨s, -, ⟨-, f, hf⟩ | ⟨-, hengine, -⟩⟩ :=
    exists_of_run (g := g) (e := e) tokens (P := fun _ => True)
      (fun _ _ _ _ => trivial) trivial
  · simp [hf] at h
  · rw [hengine]
    exact nofun

/-- What a run leaves on the stacks and what it puts out was on them before, or is in the line. -/
theorem held_run (tokens : List Token) : ((e.run g tokens).engine.held ⊆ e.held ++ tokens) ∧
    ∀ out, (e.run g tokens).result = .ok out → out ⊆ e.held ++ tokens := by
  obtain ⟨s, hs, hends⟩ := exists_of_run (g := g) (e := e) tokens
    (P := fun s => s.held ⊆ e.held ++ tokens)
    (by
      intro t ht s hs x hx
      rcases List.mem_append.mp ((subset_consume s g t).2 hx) with hx | hx
      · obtain ⟨hxt, -, hk⟩ := mem_entering hx
        rw [hxt]
        exact List.mem_append_right e.held (ht.resolve_right hk)
      · exact hs hx)
    (List.subset_append_left e.held tokens)
  have houtput : s.output ⊆ e.held ++ tokens :=
    List.Subset.trans (List.subset_append_right s.operators s.output) hs
  rcases hends with ⟨hengine, f, hf⟩ | ⟨-, hengine, hresult⟩
  · rw [hengine]
    refine ⟨hs, ?_⟩
    intro out hout
    simp [hf] at hout
  · rw [hengine]
    refine ⟨houtput, ?_⟩
    intro out hout
    obtain rfl : s.output.reverse = out := Except.ok.inj (hresult.symm.trans hout)
    intro x hx
    exact houtput (List.mem_reverse.mp hx)

/-! ## §3 Run after run -/

/-- The runs of one engine over several lines, each with what the one before has left. -/
def runAll (g : Grammar) (e : Engine) : List (List Token) → List Run
  | [] => []
  | tokens :: inputs => e.run g tokens :: runAll g (e.run g tokens).engine inputs

variable {inputs : List (List Token)} {i j : Nat} {r r' : Run} {out : List Token}

theorem length_runAll (e : Engine) (inputs : List (List Token)) :
    (e.runAll g inputs).length = inputs.length := by
  induction inputs generalizing e with
  | nil => rfl
  | cons tokens inputs ih => exact congrArg (· + 1) (ih (e.run g tokens).engine)

/-- An engine that is without the beginning of the line fails for good. -/
theorem fails_of_spent (h : Spent e.toStacks) (hr : r ∈ e.runAll g inputs) :
    ∃ f, r.result = .error f := by
  induction inputs generalizing e with
  | nil => exact absurd hr List.not_mem_nil
  | cons tokens inputs ih =>
    obtain ⟨hfails, hspent⟩ := run_of_spent (g := g) h tokens
    rcases List.mem_cons.mp hr with hfirst | hr
    · rw [hfirst]
      exact hfails
    · exact ih hspent hr

/-- **After a run that ends well all runs fail.** -/
theorem fails_after (hi : (e.runAll g inputs)[i]? = some r) (hok : r.result = .ok out)
    (hij : i < j) (hj : (e.runAll g inputs)[j]? = some r') : ∃ f, r'.result = .error f := by
  induction inputs generalizing e i j with
  | nil => simp [runAll] at hi
  | cons tokens inputs ih =>
    rw [runAll] at hi hj
    -- there is a run before, so this is not the first
    obtain ⟨j, rfl⟩ : ∃ k, j = k + 1 := ⟨j - 1, by omega⟩
    rw [List.getElem?_cons_succ] at hj
    cases i with
    | zero =>
      obtain rfl : e.run g tokens = r := by simpa using hi
      exact fails_of_spent (spent_of_run hok) (List.mem_of_getElem? hj)
    | succ i =>
      rw [List.getElem?_cons_succ] at hi
      exact ih hi (Nat.lt_of_succ_lt_succ hij) hj

/-- What a run puts out was on the stacks at first, or is in a line up to its own. -/
theorem mem_of_completes (hi : (e.runAll g inputs)[i]? = some r) (hok : r.result = .ok out)
    {x : Token} (hx : x ∈ out) : x ∈ e.held ∨ ∃ tokens ∈ inputs.take (i + 1), x ∈ tokens := by
  induction inputs generalizing e i with
  | nil => simp [runAll] at hi
  | cons tokens inputs ih =>
    obtain ⟨hleft, hout⟩ := held_run (g := g) (e := e) tokens
    have hfirst : x ∈ e.held ++ tokens →
        x ∈ e.held ∨ ∃ ts ∈ (tokens :: inputs).take (i + 1), x ∈ ts := by
      intro hx
      apply (List.mem_append.mp hx).imp_right
      intro hx
      exact ⟨tokens, List.mem_cons_self, hx⟩
    rw [runAll] at hi
    cases i with
    | zero =>
      obtain rfl : e.run g tokens = r := by simpa using hi
      exact hfirst (hout out hok hx)
    | succ i =>
      rw [List.getElem?_cons_succ] at hi
      rcases ih hi with hheld | ⟨ts, hts, hx⟩
      · exact hfirst (hleft hheld)
      · exact .inr ⟨ts, List.mem_cons_of_mem tokens hts, hx⟩

/-- **At most one run of an engine ends well**, whatever its stacks hold at first and whatever the
lines are. Before it and after it all runs fail, so what it puts out was never put out before; it
was on the stacks at first, or comes from its own line or from lines that have been refused. -/
theorem completes_once (g : Grammar) (e : Engine) (inputs : List (List Token)) :
    (e.runAll g inputs).length = inputs.length ∧
      ∀ (i : Nat) (r : Run) (out : List Token),
        (e.runAll g inputs)[i]? = some r → r.result = .ok out →
          (∀ (j : Nat) (r' : Run), j ≠ i → (e.runAll g inputs)[j]? = some r' →
            ∃ f, r'.result = .error f) ∧
          ∀ x ∈ out, x ∈ e.held ∨ ∃ tokens ∈ inputs.take (i + 1), x ∈ tokens := by
  refine ⟨length_runAll e inputs, ?_⟩
  intro i r out hi hok
  refine ⟨?_, fun x hx => mem_of_completes hi hok hx⟩
  intro j r' hne hj
  rcases Nat.lt_or_gt_of_ne hne with hlt | hgt
  · -- had an earlier run ended well, this one would not have
    cases hresult : r'.result with
    | error f => exact ⟨f, rfl⟩
    | ok out' =>
      obtain ⟨f, hf⟩ := fails_after hj hresult hlt hi
      rw [hok] at hf
      cases hf
  · exact fails_after hi hok hgt hj

/-- The lines `x +`, `y` and `y`. The first one is refused at its end, and its tokens wait. -/
def halfSum : List (List Token) :=
  [[⟨⟨.identifier, "x"⟩, 0, some ⟨0, 1, 1⟩⟩, ⟨⟨.binary, "+"⟩, 1, some ⟨2, 3, 1⟩⟩],
    [⟨⟨.identifier, "y"⟩, 0, some ⟨0, 1, 1⟩⟩], [⟨⟨.identifier, "y"⟩, 0, some ⟨0, 1, 1⟩⟩]]

/-- The second line completes the sum that the first has begun, and the third comes too late. -/
theorem completes_once_halfSum :
    (Engine.runAll arithmetic {} halfSum).length = 3 ∧
      ∃ r out, (Engine.runAll arithmetic {} halfSum)[1]? = some r ∧ r.result = .ok out ∧
        out.map (·.symbol) = ["x", "y", "+"] ∧
        (∀ (j : Nat) (r' : Run), j ≠ 1 →
          (Engine.runAll arithmetic {} halfSum)[j]? = some r' → ∃ f, r'.result = .error f) ∧
        ∀ x ∈ out, x ∈ ({} : Engine).held ∨ ∃ tokens ∈ halfSum.take 2, x ∈ tokens := by
  obtain ⟨hlength, hcompletes⟩ := completes_once arithmetic {} halfSum
  exact ⟨hlength, _, _, rfl, rfl, rfl, hcompletes 1 _ _ rfl rfl⟩

end Engine
end Fixity
