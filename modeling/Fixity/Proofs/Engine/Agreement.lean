import Fixity.ParseError
import Fixity.Proofs.Engine.Runs
import Fixity.Proofs.Grammar.Agreement

/-!
# Runs under grammars that agree

The checker asks the grammar for the partners of brackets of the line only, and the stacks compare
only what is on them with what comes from the line. So under two grammars that agree on the line
both go through the same states. The partner of a bracket may stand in different places in the two
grammars, but a refusal shows no more of it than its symbol.

## Main statements

- `feed_agree`: tokens of the line are checked in the same way, and refused with the same error
- `consumeAll_agree`: they move the same tokens on the stacks
- `runFresh_agree`: a run ends with the same tokens in postfix order, or with the same report
-/

namespace Fixity

open Grammar

variable {g g' : Grammar} {line : String} {t : Token} {ts : List Token}

/-- What the engine reads: a known token of the line, or the sentinel of its end. -/
def Grammar.Feeds (g : Grammar) (line : String) (t : Token) : Prop :=
  (t.OccursIn line ∧ g.Knows t) ∨ t.toLexeme = Token.finish.toLexeme

/-- An operation or a bracket that is read is registered and occurs in the line. -/
theorem Grammar.Feeds.registers (ht : g.Feeds line t) (hid : t.kind ≠ .identifier)
    (hfinish : t.kind ≠ .finish) : t.OccursIn line ∧ g.Registers t := by
  rcases ht with ⟨hoccurs, hknown⟩ | hlexeme
  · exact ⟨hoccurs, hknown.resolve_left hid⟩
  · exact absurd (congrArg Lexeme.kind hlexeme) hfinish

/-! ## §1 The checker -/

namespace Checker

/-- What shows of a check: the state behind it and the error of a refusal. -/
def shown {α : Type} (r : α × Option Rejection) : α × Option ParseError :=
  (r.1, r.2.map (·.error))

/-- The open brackets are brackets of the line. -/
def Inline (g : Grammar) (line : String) (opened : List Token) : Prop :=
  ∀ o ∈ opened, o.OccursIn line ∧ g.Registers o ∧ o.kind = .opening

variable {opened : List Token}

/-- The symbol of a partner is known from its lexeme. -/
theorem partnerSymbol_eq {s t : Option Token} (h : s.map (·.toLexeme) = t.map (·.toLexeme)) :
    partnerSymbol s = partnerSymbol t := by
  have hsymbol := congrArg (Option.map Lexeme.symbol) h
  rw [Option.map_map, Option.map_map] at hsymbol
  exact congrArg (Option.getD · "None") hsymbol

theorem Inline.closingFor? {o : Token} {rest : List Token} (h : Inline g line (o :: rest))
    (hagree : AgreeOn line g g') :
    (g.closingFor? o).map (·.toLexeme) = (g'.closingFor? o).map (·.toLexeme) := by
  obtain ⟨hoccurs, hreg, hk⟩ := h o (by simp)
  exact hagree.closingFor? hoccurs hreg hk

theorem bracket_agree (hagree : AgreeOn line g g') (hopened : Inline g line opened) (t : Token) :
    shown (bracket g opened t) = shown (bracket g' opened t) := by
  cases opened with
  | nil => cases hk : t.kind <;> simp only [bracket, hk]
  | cons o rest =>
    have hpartner := hopened.closingFor? hagree
    cases hk : t.kind with
    | closing =>
      simp only [bracket, hk, hpartner]
      split
      · rfl
      · simp only [shown, Option.map_some, Rejection.error, partnerSymbol_eq hpartner]
    | identifier | unary | binary | opening | start | finish => simp only [bracket, hk]

theorem refusal?_agree (hagree : AgreeOn line g g') (hopened : Inline g line opened)
    (last t : Token) :
    (refusal? g last opened t).map (·.error) = (refusal? g' last opened t).map (·.error) := by
  simp only [refusal?.eq_def]
  split
  · cases opened with
    | nil => cases t.kind <;> rfl
    | cons o rest =>
      have hpartner := hopened.closingFor? hagree
      cases t.kind with
      | finish => simp only [Option.map_some, Rejection.error, partnerSymbol_eq hpartner]
      | identifier | unary | binary | opening | closing | start => rfl
  · rfl

/-- Only the token itself can be a new open bracket. -/
theorem Inline.bracket (h : Inline g line opened) (ht : g.Feeds line t) :
    Inline g line (bracket g opened t).1 := by
  have hpush : t.kind = .opening → Inline g line (t :: opened) := by
    intro hk
    obtain ⟨hoccurs, hreg⟩ := ht.registers (by simp [hk]) (by simp [hk])
    exact List.forall_mem_cons.mpr ⟨⟨hoccurs, hreg, hk⟩, h⟩
  cases hk : t.kind with
  | opening => simpa only [Checker.bracket, hk] using hpush hk
  | closing =>
    cases opened with
    | nil => simpa only [Checker.bracket, hk] using h
    | cons o rest =>
      have hrest : Inline g line rest := fun p hp => h p (List.mem_cons_of_mem o hp)
      simp only [Checker.bracket, hk]
      split <;> exact hrest
  | identifier | unary | binary | start | finish => simpa only [Checker.bracket, hk] using h

theorem shown_eq_iff {α : Type} {r r' : α × Option Rejection} : shown r = shown r' ↔
    r.1 = r'.1 ∧ r.2.map (·.error) = r'.2.map (·.error) :=
  Prod.mk.injEq .. ▸ .rfl

/-- Two checks that show the same both pass, or both refuse with the same error. -/
theorem cases_of_shown_eq {α : Type} {r r' : α × Option Rejection} (h : shown r = shown r') :
    (∃ a, r = (a, none) ∧ r' = (a, none)) ∨
      ∃ a f f', r = (a, some f) ∧ r' = (a, some f') ∧ f.error = f'.error := by
  obtain ⟨a, refused⟩ := r
  obtain ⟨a', refused'⟩ := r'
  obtain ⟨hstate, hrefused⟩ := shown_eq_iff.mp h
  obtain rfl : a = a' := hstate
  cases refused with
  | none =>
    obtain rfl : refused' = none := Option.map_eq_none_iff.mp hrefused.symm
    exact .inl ⟨a, rfl, rfl⟩
  | some f =>
    obtain ⟨f', rfl, herror⟩ := Option.map_eq_some_iff.mp hrefused.symm
    exact .inr ⟨a, f, f', rfl, rfl, herror.symm⟩

/-- **A token of the line is checked in the same way.** -/
theorem check_agree (hagree : AgreeOn line g g') {c : Checker} (hopened : Inline g line c.opened)
    (ht : g.Feeds line t) :
    shown (c.check g t) = shown (c.check g' t) ∧ Inline g line (c.check g t).1.opened := by
  have hinline := hopened.bracket ht
  rw [check, check]
  rcases cases_of_shown_eq (bracket_agree hagree hopened t) with
    ⟨opened, hb, hb'⟩ | ⟨opened, f, f', hb, hb', herror⟩
  · rw [hb] at hinline
    have hrefusal := refusal?_agree hagree hinline c.last t
    rw [hb, hb']
    dsimp only
    cases hr : refusal? g c.last opened t with
    | some r =>
      rw [hr] at hrefusal
      obtain ⟨r', hr', herror⟩ := Option.map_eq_some_iff.mp hrefusal.symm
      rw [hr']
      exact ⟨shown_eq_iff.mpr ⟨rfl, congrArg some herror.symm⟩, hinline⟩
    | none =>
      rw [hr] at hrefusal
      rw [Option.map_eq_none_iff.mp hrefusal.symm]
      exact ⟨rfl, hinline⟩
  · rw [hb] at hinline
    rw [hb, hb']
    exact ⟨shown_eq_iff.mpr ⟨rfl, congrArg some herror⟩, hinline⟩

/-- **The tokens of the line are checked in the same way**, and refused with the same error. -/
theorem feed_agree (hagree : AgreeOn line g g') {c : Checker} (hopened : Inline g line c.opened)
    (hts : ∀ t ∈ ts, g.Feeds line t) : shown (c.feed g ts) = shown (c.feed g' ts) := by
  induction ts generalizing c with
  | nil => rfl
  | cons t ts ih =>
    obtain ⟨ht, hmore⟩ := List.forall_mem_cons.mp hts
    obtain ⟨hcheck, hinline⟩ := check_agree hagree hopened ht
    rw [feed, feed]
    rcases cases_of_shown_eq hcheck with ⟨d, hc, hc'⟩ | ⟨d, f, f', hc, hc', herror⟩
    · rw [hc] at hinline
      rw [hc, hc']
      exact ih hinline hmore
    · rw [hc, hc']
      exact shown_eq_iff.mpr ⟨rfl, congrArg some herror⟩

end Checker

/-! ## §2 The stacks -/

namespace Stacks

theorem flush_agree {ops : List Token} (h : ∀ p ∈ ops, g.yields p t = g'.yields p t)
    (output : List Token) : flush g t ops output = flush g' t ops output := by
  induction ops generalizing output with
  | nil => rfl
  | cons top ops ih =>
    obtain ⟨htop, hmore⟩ := List.forall_mem_cons.mp h
    rw [flush, flush, htop]
    cases g'.yields top t with
    | error f => rfl
    | ok v =>
      cases v with
      | true => exact ih hmore (top :: output)
      | false => rfl

theorem closeBracket_agree (h : (g.openingFor? t).map (·.toLexeme) =
    (g'.openingFor? t).map (·.toLexeme)) (ops output : List Token) :
    closeBracket g t ops output = closeBracket g' t ops output := by
  induction ops generalizing output with
  | nil => rfl
  | cons top ops ih => rw [closeBracket, closeBracket, h, ih]

/-- **A token of the line moves the same tokens on the stacks**, and on the operator stack there is
again nothing but the line. -/
theorem consume_agree (hagree : AgreeOn line g g') (few : g.classes.length < bracketRank)
    (few' : g'.classes.length < bracketRank) {s : Stacks}
    (hs : ∀ p ∈ s.operators, g.Stacked line p) (ht : g.Feeds line t) :
    s.consume g t = s.consume g' t ∧ ∀ p ∈ (s.consume g t).1.operators, g.Stacked line p := by
  have hpush {ops : List Token} (hops : ∀ p ∈ ops, g.Stacked line p)
      (hk : t.kind.isOperation = true ∨ t.kind = .opening) :
      ∀ p ∈ t :: ops, g.Stacked line p := by
    obtain ⟨hoccurs, hreg⟩ := ht.registers (by rintro h; simp [h, Kind.isOperation] at hk)
      (by rintro h; simp [h, Kind.isOperation] at hk)
    exact List.forall_mem_cons.mpr ⟨.inr ⟨hoccurs, hreg, hk⟩, hops⟩
  have hsuffix {ops : List Token} (h : ops <:+ s.operators) : ∀ p ∈ ops, g.Stacked line p :=
    fun p hp => hs p (h.subset hp)
  cases hk : t.kind with
  | identifier =>
    rw [consume_identifier hk, consume_identifier hk]
    exact ⟨rfl, hs⟩
  | opening =>
    rw [consume_opening hk, consume_opening hk]
    exact ⟨rfl, hpush hs (.inr hk)⟩
  | closing =>
    obtain ⟨hoccurs, hreg⟩ := ht.registers (by simp [hk]) (by simp [hk])
    rw [consume_closing hk, consume_closing hk]
    exact ⟨closeBracket_agree (hagree.openingFor? hoccurs hreg hk) s.operators s.output,
      hsuffix (operators_closeBracket s.operators s.output)⟩
  | unary | binary =>
    have hop : t.kind.isOperation = true := by simp [hk, Kind.isOperation]
    obtain ⟨hoccurs, hreg⟩ := ht.registers (by simp [hk]) (by simp [hk])
    have hflush : flush g t s.operators s.output = flush g' t s.operators s.output :=
      flush_agree (fun p hp => hagree.yields few few' (hs p hp) (.inl ⟨hoccurs, hreg, hop⟩))
        s.output
    have hkept := hsuffix (operators_flush (g := g) (t := t) s.operators s.output)
    simp only [consume, hk, ← hflush]
    cases hresult : flush g t s.operators s.output with
    | mk kept fault =>
      rw [hresult] at hkept
      cases fault with
      | some f => exact ⟨trivial, hkept⟩
      | none => exact ⟨trivial, hpush hkept (.inl hop)⟩
  | finish =>
    have hfinish : t.toLexeme = Token.finish.toLexeme := by
      rcases ht with ⟨-, hknown⟩ | hlexeme
      · simpa [hk, Kind.isSentinel] using hknown.isSentinel_eq_false
      · exact hlexeme
    rw [consume_finish hk, consume_finish hk]
    exact ⟨flush_agree (fun p hp => hagree.yields few few' (hs p hp) (.inr hfinish)) s.output,
      hsuffix (operators_flush s.operators s.output)⟩
  | start =>
    simp only [consume, hk]
    exact ⟨trivial, hs⟩

/-- **The tokens of the line move the same tokens on the stacks.** -/
theorem consumeAll_agree (hagree : AgreeOn line g g') (few : g.classes.length < bracketRank)
    (few' : g'.classes.length < bracketRank) {s : Stacks}
    (hs : ∀ p ∈ s.operators, g.Stacked line p) (hts : ∀ t ∈ ts, g.Feeds line t) :
    s.consumeAll g ts = s.consumeAll g' ts := by
  induction ts generalizing s with
  | nil => rfl
  | cons t ts ih =>
    obtain ⟨ht, hmore⟩ := List.forall_mem_cons.mp hts
    obtain ⟨hstep, hstacked⟩ := consume_agree hagree few few' hs ht
    rw [consumeAll, consumeAll, ← hstep]
    cases hresult : s.consume g t with
    | mk next fault =>
      rw [hresult] at hstacked
      cases fault with
      | some f => rfl
      | none => exact ih hstacked hmore

end Stacks

/-! ## §3 Whole runs -/

open Checker Stacks

/-- **A run ends with the same tokens in postfix order, or with the same report.** -/
theorem runFresh_agree (hagree : AgreeOn line g g') (few : g.classes.length < bracketRank)
    (few' : g'.classes.length < bracketRank) {tokens : List Token}
    (htokens : ∀ t ∈ tokens, t.OccursIn line ∧ g.Knows t) (hspans : ∀ t ∈ tokens, t.Spanned) :
    (g.runFresh tokens).result.mapError (·.report) =
      (g'.runFresh tokens).result.mapError (·.report) := by
  obtain ⟨e, ⟨he, -⟩, hsentinel⟩ := exists_sentinel hspans
  have hkind : e.kind = .finish := congrArg Lexeme.kind he
  have hsupports : ∀ t ∈ tokens, g.Supports t := fun t ht => (htokens t ht).2.supports few
  have hsupports' : ∀ t ∈ tokens, g'.Supports t := fun t ht =>
    ((hagree.knows (htokens t ht).1).mp (htokens t ht).2).supports few'
  have hfeeds : ∀ t ∈ tokens, g.Feeds line t := fun t ht => .inl (htokens t ht)
  have hall : ∀ t ∈ tokens ++ [e], g.Feeds line t := by
    rw [List.forall_mem_append, List.forall_mem_singleton]
    exact ⟨hfeeds, .inr he⟩
  have hstop := Engine.stop?_eq hsupports he
  have hstop' := Engine.stop?_eq hsupports' he
  rcases cases_of_shown_eq (feed_agree (c := {}) hagree nofun hall) with
    ⟨c, hr, hr'⟩ | ⟨c, r, r', hr, hr', herror⟩
  · have haccepts : Accepts g tokens := (feed_append_finish hkind).mp (congrArg Prod.snd hr)
    have haccepts' : Accepts g' tokens := (feed_append_finish hkind).mp (congrArg Prod.snd hr')
    obtain ⟨d, hfeed, -⟩ := feed_append_eq_none haccepts
    obtain ⟨s, hread, above, habove, -, -⟩ := lockstep_start.consumeAll (s := {}) hsupports hfeed
    obtain ⟨operators, output⟩ := s
    obtain rfl : operators = above ++ [.start] := habove
    have hread' := hread
    rw [consumeAll_agree hagree few few' (by simp [Stacked]) hfeeds] at hread'
    rw [runFresh_accepted hsupports hspans haccepts hread,
      runFresh_accepted hsupports' hspans haccepts' hread']
  · -- both runs stop at the same token
    rw [hr, Option.map_some] at hstop
    rw [hr', Option.map_some] at hstop'
    rw [(hsentinel g).1 _ hstop, (hsentinel g').1 _ hstop']
    exact congrArg Except.error (congrArg Report.parseError herror)

end Fixity
