import Fixity.Checker
import Fixity.Proofs.Grammar.Registered

/-!
# What the checker accepts

The checker knows the last token and the open brackets only. Still it accepts the lists that the
expression grammar derives, and no others: an expression is a chain of operands with infix
operations between them, and an operand is an identifier, an operand behind a prefix operation,
or an expression in brackets that belong together.

## Main statements

- `check_eq_none_iff`: what a passed check says of the token
- `Derives.feed`: a phrase is accepted wherever an operand is awaited
- `accepts_iff_derives`: the checker accepts the expressions
- `accepts_of_operand`: it accepts every operand in the place of an identifier
- `feed_refresh_iff_derives`: what a refreshed checker accepts, and how it is left
-/

namespace Fixity

variable {g : Grammar}

/-! ## §1 The expression grammar -/

inductive Phrase where
  | expression
  | operand

/-- The token lists that make up a phrase. -/
inductive Derives (g : Grammar) : Phrase → List Token → Prop where
  | single {ts : List Token} : Derives g .operand ts → Derives g .expression ts
  | chain {ts us : List Token} {b : Token} :
      Derives g .expression ts → b.kind = .binary → Derives g .operand us →
      Derives g .expression (ts ++ b :: us)
  | name {t : Token} : t.kind = .identifier → Derives g .operand [t]
  | signed {ts : List Token} {u : Token} :
      u.kind = .unary → Derives g .operand ts → Derives g .operand (u :: ts)
  | bracketed {ts : List Token} {o c : Token} :
      g.Closes o c → Derives g .expression ts → Derives g .operand (o :: (ts ++ [c]))

/-- A prefix operation before an expression goes to its first operand. -/
theorem Derives.signed_expression {ts : List Token} {u : Token} (hu : u.kind = .unary)
    (h : Derives g .expression ts) : Derives g .expression (u :: ts) := by
  -- the first operand of a chain is that of the chain it goes on
  generalize hp : Phrase.expression = p at h
  induction h with
  | single h _ => exact .single (.signed hu h)
  | chain _ hb h ih _ => exact .chain (ih rfl) hb h
  | name => cases hp
  | signed => cases hp
  | bracketed => cases hp

theorem Derives.append_expression {ts us : List Token} {b : Token}
    (hts : Derives g .expression ts) (hb : b.kind = .binary) (hus : Derives g .expression us) :
    Derives g .expression (ts ++ b :: us) := by
  generalize hp : Phrase.expression = p at hus
  induction hus with
  | single h _ => exact .chain hts hb h
  | chain _ hb' h ih _ =>
    -- chains grow at their ends only, so the last operand comes last
    have hchain := Derives.chain (ih rfl) hb' h
    rwa [List.append_assoc] at hchain
  | name => cases hp
  | signed => cases hp
  | bracketed => cases hp

namespace Checker

/-! ## §2 One token -/

/-- All the ways in which a token passes the check, with the checker afterwards. -/
inductive Passes (g : Grammar) (c : Checker) (t : Token) : Checker → Prop where
  | name : c.last.kind.awaitsOperand = true → t.kind = .identifier → Passes g c t ⟨t, c.opened⟩
  | signed : c.last.kind.awaitsOperand = true → t.kind = .unary → Passes g c t ⟨t, c.opened⟩
  | opening : c.last.kind.awaitsOperand = true → t.kind = .opening →
      Passes g c t ⟨t, t :: c.opened⟩
  | chain : c.last.kind.endsOperand = true → t.kind = .binary → Passes g c t ⟨t, c.opened⟩
  | closing {o : Token} {rest : List Token} : c.last.kind.endsOperand = true →
      c.opened = o :: rest → g.Closes o t → Passes g c t ⟨t, rest⟩
  | finish : c.last.kind.endsOperand = true → c.opened = [] → t.kind = .finish →
      Passes g c t ⟨t, []⟩

/-- What comes next decides which of the two conditions the last token has to meet. -/
theorem mayPrecede_eq (last next : Kind) :
    last.mayPrecede next =
      if next.beginsOperand then last.awaitsOperand
      else if next.followsOperand then last.endsOperand else false := by
  cases last <;> cases next <;> rfl

theorem bracket_eq_none_iff {opened opened' : List Token} {t : Token} :
    bracket g opened t = (opened', none) ↔
      (t.kind = .opening ∧ opened' = t :: opened) ∨
      (∃ o rest, opened = o :: rest ∧ g.Closes o t ∧ opened' = rest) ∨
      (t.kind ≠ .opening ∧ t.kind ≠ .closing ∧ opened' = opened) := by
  by_cases hopen : t.kind = .opening
  · -- an opening bracket is no partner of another one
    have hb : bracket g opened t = (t :: opened, none) := by simp [bracket, hopen]
    have hno : ∀ o : Token, ¬ g.Closes o t := by
      intro o h
      simp [h.kind_closing] at hopen
    simp [hb, hopen, hno, eq_comm (a := t :: opened)]
  by_cases hclose : t.kind = .closing
  · cases opened with
    | nil => simp [bracket, hclose]
    | cons o rest =>
      have hpartner : (g.closingFor? o).map (·.toLexeme) = some t.toLexeme ↔ g.Closes o t :=
        Iff.rfl
      by_cases hc : g.Closes o t
      · simp only [bracket, hclose, hpartner, hc, if_true]
        simp [hc, eq_comm (a := rest)]
      · simp only [bracket, hclose, hpartner, hc, if_false]
        simp [hc]
  · have hb : bracket g opened t = (opened, none) := by
      rw [bracket.eq_def]
      split <;> simp_all
    have hno : ∀ o : Token, ¬ g.Closes o t := fun o h => hclose h.kind_closing
    simp [hb, hopen, hclose, hno, eq_comm (a := opened)]

theorem refusal?_eq_none_iff {last t : Token} {opened : List Token} :
    refusal? g last opened t = none ↔
      last.kind.mayPrecede t.kind = true ∧ (t.kind = .finish → opened = []) := by
  by_cases h : last.kind.mayPrecede t.kind = true
  · -- next to each other they may stand, so only the end of the line is left to refuse
    rw [refusal?.eq_def, if_pos h]
    cases hk : t.kind <;> cases opened <;> simp_all
  · simp [refusal?.eq_def, h]

theorem check_eq_none_iff_exists {c c' : Checker} {t : Token} :
    c.check g t = (c', none) ↔
      ∃ opened, bracket g c.opened t = (opened, none) ∧
        refusal? g c.last opened t = none ∧ c' = ⟨t, opened⟩ := by
  rw [check]
  obtain ⟨opened, r⟩ := bracket g c.opened t
  cases r with
  | some r => simp
  | none =>
    cases hr : refusal? g c.last opened t with
    | some r => simp [hr]
    | none => simp [hr, eq_comm]

/-- **What a check says**: it passes in exactly the listed ways. -/
theorem check_eq_none_iff {c c' : Checker} {t : Token} :
    c.check g t = (c', none) ↔ Passes g c t c' := by
  rw [check_eq_none_iff_exists]
  constructor
  · rintro ⟨opened, hb, hr, rfl⟩
    obtain ⟨hnext, hfinish⟩ := refusal?_eq_none_iff.mp hr
    rw [mayPrecede_eq] at hnext
    rcases bracket_eq_none_iff.mp hb with ⟨hk, rfl⟩ | ⟨o, rest, ho, hc, rfl⟩ | ⟨hno, hnc, rfl⟩
    · rw [hk] at hnext
      exact .opening hnext hk
    · rw [hc.kind_closing] at hnext
      exact .closing hnext ho hc
    · -- no bracket, so the kind alone decides
      cases hk : t.kind <;> rw [hk] at hnext hfinish
      case identifier => exact .name hnext hk
      case unary => exact .signed hnext hk
      case binary => exact .chain hnext hk
      case finish =>
        rw [hfinish rfl]
        exact .finish hnext (hfinish rfl) hk
      case start => simp [Kind.beginsOperand, Kind.followsOperand] at hnext
      case opening => exact absurd hk hno
      case closing => exact absurd hk hnc
  · intro h
    cases h with
    | name ha hk | signed ha hk | chain ha hk =>
      refine ⟨c.opened, bracket_eq_none_iff.mpr ?_, refusal?_eq_none_iff.mpr ?_, rfl⟩
      · simp [hk]
      · simpa [mayPrecede_eq, hk, Kind.beginsOperand, Kind.followsOperand] using ha
    | opening ha hk =>
      refine ⟨t :: c.opened, bracket_eq_none_iff.mpr ?_, refusal?_eq_none_iff.mpr ?_, rfl⟩
      · simp [hk]
      · simpa [mayPrecede_eq, hk, Kind.beginsOperand] using ha
    | @closing o rest ha ho hc =>
      have hk := hc.kind_closing
      refine ⟨rest, bracket_eq_none_iff.mpr ?_, refusal?_eq_none_iff.mpr ?_, rfl⟩
      · exact .inr (.inl ⟨o, rest, ho, hc, rfl⟩)
      · rw [mayPrecede_eq, hk]
        exact ⟨ha, nofun⟩
    | finish ha ho hk =>
      refine ⟨[], bracket_eq_none_iff.mpr ?_, refusal?_eq_none_iff.mpr ?_, rfl⟩
      · simp [hk, ho]
      · rw [mayPrecede_eq, hk]
        exact ⟨ha, fun _ => rfl⟩

/-! ## §3 Token lists -/

/-- Checks tokens one by one, up to the first that is refused. -/
def feed (g : Grammar) (c : Checker) : List Token → Checker × Option Rejection
  | [] => (c, none)
  | t :: ts =>
    match c.check g t with
    | (c, some r) => (c, some r)
    | (c, none) => feed g c ts

theorem feed_cons_of_passes {c c' : Checker} {t : Token} (h : Passes g c t c')
    (ts : List Token) : feed g c (t :: ts) = feed g c' ts := by
  rw [feed, check_eq_none_iff.mpr h]

theorem feed_cons_eq_none {c : Checker} {t : Token} {ts : List Token} :
    (feed g c (t :: ts)).2 = none ↔ ∃ c', Passes g c t c' ∧ (feed g c' ts).2 = none := by
  constructor
  · intro h
    rw [feed] at h
    cases hcheck : c.check g t with
    | mk c' r =>
      cases r with
      | some r => simp [hcheck] at h
      | none => exact ⟨c', check_eq_none_iff.mp hcheck, by simpa [hcheck] using h⟩
  · intro ⟨c', hpass, h⟩
    rw [feed_cons_of_passes hpass, h]

/-- Of tokens that pass, the first one passes and then the others do. -/
theorem exists_of_feed_cons {c c' : Checker} {t : Token} {ts : List Token}
    (h : feed g c (t :: ts) = (c', none)) :
    ∃ d, Passes g c t d ∧ feed g d ts = (c', none) := by
  obtain ⟨d, hpass, -⟩ := feed_cons_eq_none.mp (congrArg Prod.snd h)
  exact ⟨d, hpass, feed_cons_of_passes hpass ts ▸ h⟩

theorem feed_append_of_none {c c' : Checker} {ts : List Token} (h : feed g c ts = (c', none))
    (us : List Token) : feed g c (ts ++ us) = feed g c' us := by
  induction ts generalizing c with
  | nil => rw [feed, Prod.mk.injEq] at h; rw [List.nil_append, h.1]
  | cons t ts ih =>
    obtain ⟨d, hpass, hrest⟩ := exists_of_feed_cons h
    rw [List.cons_append, feed_cons_of_passes hpass, ih hrest]

theorem feed_append_eq_none {c : Checker} {ts us : List Token}
    (h : (feed g c (ts ++ us)).2 = none) :
    ∃ c', feed g c ts = (c', none) ∧ (feed g c' us).2 = none := by
  induction ts generalizing c with
  | nil => exact ⟨c, rfl, h⟩
  | cons t ts ih =>
    obtain ⟨d, hpass, h⟩ := feed_cons_eq_none.mp h
    obtain ⟨c', hts, hus⟩ := ih h
    exact ⟨c', by rw [feed_cons_of_passes hpass, hts], hus⟩

/-- The rest of the line is accepted, its end included. -/
def Completes (g : Grammar) (c : Checker) (ts : List Token) : Prop :=
  (feed g c (ts ++ [.finish])).2 = none

/-- A fresh checker accepts the tokens and the end of the line behind them. -/
def Accepts (g : Grammar) (ts : List Token) : Prop :=
  Completes g {} ts

instance (g : Grammar) (ts : List Token) : Decidable (Accepts g ts) :=
  inferInstanceAs (Decidable ((feed g {} (ts ++ [.finish])).2 = none))

theorem feed_finish {e : Token} (he : e.kind = .finish) {c : Checker} :
    (feed g c [e]).2 = none ↔ c.last.kind.endsOperand = true ∧ c.opened = [] := by
  rw [feed_cons_eq_none]
  constructor
  · intro ⟨c', hpass, _⟩
    cases hpass with
    | finish ha ho _ => exact ⟨ha, ho⟩
    | closing _ _ hc => exact absurd hc.kind_closing (by simp [he])
    | name _ hk | signed _ hk | opening _ hk | chain _ hk => simp [he] at hk
  · intro ⟨ha, ho⟩
    exact ⟨_, .finish ha ho he, rfl⟩

/-- Where the end of the line stands does not matter. -/
theorem feed_append_finish {e : Token} (he : e.kind = .finish) {c : Checker} {ts : List Token} :
    (feed g c (ts ++ [e])).2 = none ↔ Completes g c ts := by
  have hends (f : Token) (hf : f.kind = .finish) : (feed g c (ts ++ [f])).2 = none ↔
      ∃ c', feed g c ts = (c', none) ∧ c'.last.kind.endsOperand = true ∧ c'.opened = [] := by
    constructor
    · intro h
      obtain ⟨c', hts, hend⟩ := feed_append_eq_none h
      exact ⟨c', hts, (feed_finish hf).mp hend⟩
    · intro ⟨c', hts, hend⟩
      rw [feed_append_of_none hts]
      exact (feed_finish hf).mpr hend
  rw [Completes, hends e he, hends .finish rfl]

theorem completes_nil {c : Checker} :
    Completes g c [] ↔ c.last.kind.endsOperand = true ∧ c.opened = [] :=
  feed_finish rfl

theorem completes_cons {c : Checker} {t : Token} {ts : List Token} :
    Completes g c (t :: ts) ↔ ∃ c', Passes g c t c' ∧ Completes g c' ts :=
  feed_cons_eq_none

end Checker

open Checker

/-! ## §4 Phrases are accepted -/

/-- Where an operand is awaited a phrase is accepted, and leaves the open brackets as they
were. -/
theorem Derives.feed {p : Phrase} {ts : List Token} (h : Derives g p ts) {c : Checker}
    (hc : c.last.kind.awaitsOperand = true) :
    ∃ last : Token, last.kind.endsOperand = true ∧ feed g c ts = (⟨last, c.opened⟩, none) := by
  induction h generalizing c with
  | single _ ih => exact ih hc
  | @chain ts us b _ hb _ ihts ihus =>
    obtain ⟨last, hlast, hts⟩ := ihts hc
    have hpass : Passes g ⟨last, c.opened⟩ b ⟨b, c.opened⟩ := .chain hlast hb
    obtain ⟨last', hlast', hus⟩ := ihus (c := ⟨b, c.opened⟩) (by rw [hb]; rfl)
    exact ⟨last', hlast', by rw [feed_append_of_none hts, feed_cons_of_passes hpass, hus]⟩
  | @name t ht => exact ⟨t, by rw [ht]; rfl, by rw [feed_cons_of_passes (.name hc ht)]; rfl⟩
  | @signed ts u hu _ ih =>
    obtain ⟨last, hlast, hts⟩ := ih (c := ⟨u, c.opened⟩) (by rw [hu]; rfl)
    exact ⟨last, hlast, by rw [feed_cons_of_passes (.signed hc hu), hts]⟩
  | @bracketed ts o k hclose _ ih =>
    -- the content leaves the bracket open, and its partner closes it
    have ho := hclose.kind_opening
    obtain ⟨last, hlast, hts⟩ := ih (c := ⟨o, o :: c.opened⟩) (by rw [ho]; rfl)
    have hpass : Passes g ⟨last, o :: c.opened⟩ k ⟨k, c.opened⟩ := .closing hlast rfl hclose
    refine ⟨k, by rw [hclose.kind_closing]; rfl, ?_⟩
    rw [feed_cons_of_passes (.opening hc ho), feed_append_of_none hts, feed_cons_of_passes hpass]
    rfl

/-! ## §5 Accepted lists are phrases -/

/-- Where a phrase ends: at the end of the line, or at the bracket that closes the innermost
open one. -/
inductive Stops (g : Grammar) : (opened rest : List Token) → Prop where
  | finish : Stops g [] []
  | closing {o c : Token} {opened rest : List Token} :
      g.Closes o c → Completes g ⟨c, opened⟩ rest → Stops g (o :: opened) (c :: rest)

mutual

theorem exists_operand {c : Checker} {ts : List Token} (h : Completes g c ts)
    (hc : c.last.kind.awaitsOperand = true) :
    ∃ (xs rest : List Token) (last : Token), ts = xs ++ rest ∧ Derives g .operand xs ∧
      last.kind.endsOperand = true ∧ Completes g ⟨last, c.opened⟩ rest := by
  match ts with
  | [] =>
    -- the line does not end where an operand is awaited
    have := (completes_nil.mp h).1
    cases hk : c.last.kind <;> simp [hk, Kind.endsOperand, Kind.awaitsOperand] at this hc
  | t :: ts =>
    obtain ⟨c', hpass, hts⟩ := completes_cons.mp h
    cases hpass with
    | name _ hk => exact ⟨[t], ts, t, rfl, .name hk, by rw [hk]; rfl, hts⟩
    | signed _ hk =>
      obtain ⟨xs, rest, last, rfl, hxs, hlast, hrest⟩ := exists_operand hts (by rw [hk]; rfl)
      exact ⟨t :: xs, rest, last, rfl, .signed hk hxs, hlast, hrest⟩
    | opening _ hk =>
      -- an operand, what is chained to it, and the closing bracket
      obtain ⟨xs, rest, last, rfl, hxs, hlast, hrest⟩ := exists_operand hts (by rw [hk]; rfl)
      obtain ⟨ys, rest', rfl, hys, hstop⟩ := exists_chain hrest hlast
      cases hstop with
      | @closing _ k _ rest'' hclose hrest'' =>
        refine ⟨t :: ((xs ++ ys) ++ [k]), rest'', k, by simp, ?_, ?_, hrest''⟩
        · exact .bracketed hclose (hys xs (.single hxs))
        · rw [hclose.kind_closing]
          rfl
    | chain ha _ | closing ha _ _ | finish ha _ _ =>
      -- these need an operand before them
      cases hk : c.last.kind <;> simp [hk, Kind.endsOperand, Kind.awaitsOperand] at ha hc
termination_by ts.length

theorem exists_chain {c : Checker} {ts : List Token} (h : Completes g c ts)
    (hc : c.last.kind.endsOperand = true) :
    ∃ ys rest : List Token, ts = ys ++ rest ∧
      (∀ xs, Derives g .expression xs → Derives g .expression (xs ++ ys)) ∧
      Stops g c.opened rest := by
  match ts with
  | [] =>
    refine ⟨[], [], rfl, by simp, ?_⟩
    rw [(completes_nil.mp h).2]
    exact .finish
  | t :: ts =>
    obtain ⟨c', hpass, hts⟩ := completes_cons.mp h
    cases hpass with
    | chain _ hk =>
      -- one more operand, and what is chained to that
      obtain ⟨xs, rest, last, rfl, hxs, hlast, hrest⟩ := exists_operand hts (by rw [hk]; rfl)
      obtain ⟨ys, rest', rfl, hys, hstop⟩ := exists_chain hrest hlast
      refine ⟨t :: (xs ++ ys), rest', by simp, ?_, hstop⟩
      intro zs hzs
      have hmore := hys _ (hzs.chain hk hxs)
      simpa using hmore
    | closing _ ho hclose =>
      refine ⟨[], t :: ts, rfl, by simp, ?_⟩
      rw [ho]
      exact .closing hclose hts
    | finish _ _ hk =>
      -- nothing passes behind the end of the line
      cases ts with
      | nil =>
        have := (completes_nil.mp hts).1
        simp [hk, Kind.endsOperand] at this
      | cons t' ts =>
        obtain ⟨_, hpass, -⟩ := completes_cons.mp hts
        cases hpass with
        | name ha _ | signed ha _ | opening ha _ | chain ha _ | closing ha _ _ | finish ha _ _ =>
          simp [hk, Kind.awaitsOperand, Kind.endsOperand] at ha
    | name ha _ | signed ha _ | opening ha _ =>
      -- no operand begins directly behind another one
      cases hk : c.last.kind <;> simp [hk, Kind.endsOperand, Kind.awaitsOperand] at ha hc
termination_by ts.length

end

/-- From where an operand is awaited, the rest of an accepted line starts with an expression. -/
theorem exists_expression {c : Checker} {ts : List Token} (h : Completes g c ts)
    (hc : c.last.kind.awaitsOperand = true) :
    ∃ es rest, ts = es ++ rest ∧ Derives g .expression es ∧ Stops g c.opened rest := by
  obtain ⟨xs, rest, last, rfl, hxs, hlast, hrest⟩ := exists_operand h hc
  obtain ⟨ys, rest', rfl, hys, hstop⟩ := exists_chain hrest hlast
  exact ⟨xs ++ ys, rest', by simp, hys xs (.single hxs), hstop⟩

/-- **The checker accepts the expressions** and nothing else. -/
theorem accepts_iff_derives {ts : List Token} :
    Accepts g ts ↔ Derives g .expression ts := by
  constructor
  · intro h
    obtain ⟨es, rest, rfl, hes, hstop⟩ := exists_expression h rfl
    -- no bracket is open, so the expression goes up to the end of the line
    cases hstop
    rwa [List.append_nil]
  · intro h
    obtain ⟨last, hlast, hts⟩ := h.feed (c := {}) rfl
    rw [Accepts, Completes, feed_append_of_none hts]
    exact completes_nil.mpr ⟨hlast, rfl⟩

/-! ## §6 Operands in the place of an identifier -/

/-- Behind an operand it does not matter with which token the operand has ended. -/
theorem Checker.Completes.of_endsOperand {l l' : Token} {opened ts : List Token}
    (h : Completes g ⟨l, opened⟩ ts) (hl : l.kind.endsOperand = true)
    (hl' : l'.kind.endsOperand = true) : Completes g ⟨l', opened⟩ ts := by
  cases ts with
  | nil => exact completes_nil.mpr ⟨hl', (completes_nil.mp h).2⟩
  | cons t ts =>
    obtain ⟨c', hpass, hts⟩ := completes_cons.mp h
    refine completes_cons.mpr ⟨c', ?_, hts⟩
    cases hpass with
    | chain _ hk => exact .chain hl' hk
    | closing _ ho hclose => exact .closing hl' ho hclose
    | finish _ ho hk => exact .finish hl' ho hk
    | name ha _ | signed ha _ | opening ha _ =>
      -- these do not come behind an operand
      cases hk : l.kind <;> simp [hk, Kind.endsOperand, Kind.awaitsOperand] at ha hl

/-- **Where an identifier is accepted, every operand is.** -/
theorem accepts_of_operand {x : Token} {before operand behind : List Token}
    (h : Accepts g (before ++ x :: behind)) (hx : x.kind = .identifier)
    (hoperand : Derives g .operand operand) : Accepts g (before ++ (operand ++ behind)) := by
  rw [Accepts, Completes, List.append_assoc] at h ⊢
  obtain ⟨c, hbefore, hrest⟩ := feed_append_eq_none h
  obtain ⟨c', hpass, hbehind⟩ := completes_cons.mp hrest
  cases hpass with
  | name ha _ =>
    obtain ⟨last, hlast, hread⟩ := hoperand.feed ha
    rw [feed_append_of_none hbefore, List.append_assoc, feed_append_of_none hread]
    exact Completes.of_endsOperand hbehind (by rw [hx]; rfl) hlast
  | signed _ hk | opening _ hk | chain _ hk | finish _ _ hk => simp [hx] at hk
  | closing _ _ hclose => exact absurd hclose.kind_closing (by simp [hx])

/-! ## §7 Lines with their end -/

/-- **A refreshed checker accepts exactly the expressions.** Whatever it has checked before, it
accepts tokens of any kinds and the end of the line behind them if and only if the tokens are an
expression. Then no bracket is open, and the end is the last token. -/
theorem feed_refresh_iff_derives (g : Grammar) (c : Checker) (ts : List Token) (index : Int)
    (span : Option Span) :
    ((feed g c.refresh (ts ++ [Token.finish.placed index span])).2 = none ↔
      Derives g .expression ts) ∧
    (Derives g .expression ts ↔ feed g c.refresh (ts ++ [Token.finish.placed index span]) =
      (⟨Token.finish.placed index span, []⟩, none)) := by
  have haccepts : (feed g c.refresh (ts ++ [Token.finish.placed index span])).2 = none ↔
      Derives g .expression ts :=
    (feed_append_finish rfl).trans accepts_iff_derives
  refine ⟨haccepts, ?_⟩
  constructor
  · intro h
    -- behind an expression no bracket is open, so the end passes
    obtain ⟨last, hlast, hts⟩ := h.feed (c := c.refresh) rfl
    rw [feed_append_of_none hts, feed_cons_of_passes (.finish hlast rfl rfl)]
    rfl
  · intro h
    exact haccepts.mp (congrArg Prod.snd h)

end Fixity
