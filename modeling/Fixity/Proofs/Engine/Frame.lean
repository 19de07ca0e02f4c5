import Fixity.Proofs.Engine.Runs

/-!
# A phrase on the stacks

While a phrase is read, nothing happens to the operators below the last one that does not give
way, and the output before it stays. So what comes out of an expression in brackets is its own
postfix order, wherever it stands in a line, and the bracket follows it.

## Main statements

- `Derives.exists_frame`: a phrase leaves what is below it alone
- `exists_content`: an expression in brackets puts out what it puts out as a line of its own
-/

namespace Fixity

open Stacks

variable {g : Grammar} {ts : List Token}

/-! ## §1 Operators that hold -/

/-- No operation makes the token give way. -/
def Grammar.Holds (g : Grammar) (b : Token) : Prop :=
  ∀ t : Token, g.Supports t → t.kind.isOperation = true → g.yields b t = .ok false

theorem holds_start : g.Holds .start := by
  intro t ht hk
  exact Grammar.yields_start ht hk

theorem holds_opening {o : Token} (ho : g.Registers o) (hopen : o.kind = .opening) :
    g.Holds o := by
  intro t ht hk
  exact Grammar.yields_opening ho hopen ht hk

theorem Grammar.Closes.holds {o c : Token} (h : g.Closes o c) : g.Holds o :=
  holds_opening h.registers_opening h.kind_opening

/-- Operations that wait above the token that holds. -/
def Grammar.Pending (g : Grammar) (ops : List Token) : Prop :=
  ∀ p ∈ ops, g.Supports p ∧ p.kind.isOperation = true

theorem Grammar.pending_nil : g.Pending [] := by
  intro p hp
  simp at hp

/-- An operation sends away some of those that wait, and waits above the others. -/
theorem Grammar.Pending.exists_consume {ops : List Token} (hops : g.Pending ops) {t : Token}
    (ht : g.Supports t) (hk : t.kind.isOperation = true) :
    ∃ popped kept, g.Pending (t :: kept) ∧
      ∀ (b : Token) (rest output : List Token), g.Holds b →
        Stacks.consume g ⟨ops ++ b :: rest, output⟩ t =
          (⟨(t :: kept) ++ b :: rest, popped ++ output⟩, none) := by
  -- all comparisons are between operations of the grammar
  have hyields : ∀ p ∈ ops, ∃ v, g.yields p t = .ok v := by
    intro p hp
    obtain ⟨hsupports, hpk⟩ := hops p hp
    exact Grammar.exists_yields (hsupports.1.registers hpk) hpk (ht.1.registers hk) hk
  obtain ⟨popped, kept, rfl, -, hflush⟩ := exists_flush hyields
  refine ⟨popped.reverse, kept, ?_, ?_⟩
  · intro p hp
    rcases List.mem_cons.mp hp with rfl | hp
    · exact ⟨ht, hk⟩
    · exact hops p (by simp [hp])
  · intro b rest output hb
    have hstays := hflush b rest output (hb t ht hk)
    exact consume_operation (s := ⟨popped ++ kept ++ b :: rest, output⟩) hk hstays

/-! ## §2 Phrases -/

/-- **A phrase leaves what is below it alone.** Of the operations that waited directly before it
some are sent out; the tokens of the phrase are sent out behind them or wait. -/
theorem Derives.exists_frame {phrase : Phrase} (h : Derives g phrase ts)
    (hts : ∀ x ∈ ts, g.Supports x) {ops : List Token} (hops : g.Pending ops) :
    ∃ waiting sent, g.Pending waiting ∧
      ∀ (b : Token) (rest output : List Token), g.Holds b →
        consumeAll g ⟨ops ++ b :: rest, output⟩ ts =
          (⟨waiting ++ b :: rest, sent ++ output⟩, none) := by
  induction h generalizing ops with
  | single _ ih => exact ih hts hops
  | @name t hk =>
    -- an identifier sends nothing out but itself
    refine ⟨ops, [t], hops, ?_⟩
    intro b rest output _
    rw [consumeAll_cons (consume_identifier hk _), consumeAll]
    rfl
  | @signed ts u hu _ ih =>
    obtain ⟨popped, kept, hkept, hconsume⟩ :=
      hops.exists_consume (hts u (by simp)) (by rw [hu]; rfl)
    obtain ⟨waiting, sent, hwaiting, hread⟩ := ih (fun x hx => hts x (by simp [hx])) hkept
    refine ⟨waiting, sent ++ popped, hwaiting, ?_⟩
    intro b rest output hb
    rw [consumeAll_cons (hconsume b rest output hb), hread b rest _ hb, List.append_assoc]
  | @bracketed ts o c hclose _ ih =>
    -- inside the bracket nothing waits yet
    obtain ⟨waiting, sent, hwaiting, hread⟩ :=
      ih (fun x hx => hts x (by simp [hx])) Grammar.pending_nil
    refine ⟨ops, o :: (waiting.reverse ++ sent), hops, ?_⟩
    intro b rest output _
    have hcontent := hread o (ops ++ b :: rest) output hclose.holds
    rw [List.nil_append] at hcontent
    rw [consumeAll_cons (consume_opening hclose.kind_opening _), consumeAll_append hcontent,
      consumeAll, consume_closing hclose.kind_closing,
      closeBracket_content hclose fun p hp => (hwaiting p hp).2]
    simp [consumeAll]
  | @chain ts us t _ hb _ ihts ihus =>
    -- what the left operand leaves is what the operation compares itself with
    obtain ⟨before, sent, hbefore, hreadts⟩ := ihts (fun x hx => hts x (by simp [hx])) hops
    obtain ⟨popped, kept, hkept, hconsume⟩ :=
      hbefore.exists_consume (hts t (by simp)) (by rw [hb]; rfl)
    obtain ⟨waiting, sent', hwaiting, hreadus⟩ := ihus (fun x hx => hts x (by simp [hx])) hkept
    refine ⟨waiting, sent' ++ (popped ++ sent), hwaiting, ?_⟩
    intro b rest output hold
    rw [consumeAll_append (hreadts b rest output hold),
      consumeAll_cons (hconsume b rest _ hold), hreadus b rest _ hold]
    simp

/-- An expression has a postfix order. -/
theorem exists_runFresh (h : Derives g .expression ts) (hts : ∀ x ∈ ts, g.Supports x)
    (hspans : ∀ x ∈ ts, x.Spanned) : ∃ postfixed, (g.runFresh ts).result = .ok postfixed := by
  -- it stands above the beginning of the line, where nothing else waits
  obtain ⟨waiting, sent, -, hread⟩ := h.exists_frame hts Grammar.pending_nil
  exact ⟨_, runFresh_accepted hts hspans (accepts_iff_derives.mpr h)
    (hread .start [] [] holds_start)⟩

/-- **An expression in brackets puts out what it puts out as a line of its own**, and then the
bracket. -/
theorem exists_content (h : Derives g .expression ts) (hts : ∀ x ∈ ts, g.Supports x)
    (hspans : ∀ x ∈ ts, x.Spanned) {o c : Token} (hclose : g.Closes o c) :
    ∃ content, (g.runFresh ts).result = .ok content ∧
      ∀ operators output : List Token,
        consumeAll g ⟨o :: operators, output⟩ (ts ++ [c]) =
          (⟨operators, o :: (content.reverse ++ output)⟩, none) := by
  obtain ⟨waiting, sent, hwaiting, hread⟩ := h.exists_frame hts Grammar.pending_nil
  -- as a line of its own it stands above the beginning of the line
  refine ⟨_, runFresh_accepted hts hspans (accepts_iff_derives.mpr h)
    (hread .start [] [] holds_start), ?_⟩
  intro operators output
  -- here it stands above the bracket, which holds as well
  have hcontent := hread o operators output hclose.holds
  rw [List.nil_append] at hcontent
  rw [consumeAll_append hcontent, consumeAll, consume_closing hclose.kind_closing,
    closeBracket_content hclose fun p hp => (hwaiting p hp).2]
  simp [consumeAll]

end Fixity
