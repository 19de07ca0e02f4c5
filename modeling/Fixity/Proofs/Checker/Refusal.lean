import Fixity.ParseError
import Fixity.Proofs.Checker.Cancellation
import Fixity.Proofs.Pieces.Tokens
import Mathlib.Data.List.Permutation

/-!
# When a token is refused

The checker refuses a token as early as it can be known that no line starts like this: what it has
accepted so far is the beginning of a line that it accepts as a whole, for an operand can still
come, and every open bracket has a partner that can close it. And where the brackets are wrong it
blames the innermost bracket that is open.

## Main statements

- `exists_accepts_append`: accepted tokens of a grammar are the beginning of an accepted line
- `not_accepts_of_refused`: no accepted line begins with a refused token behind them
- `Checker.refuses_of_check`: all the ways in which a token is refused
- `Rejection.blames_of_refuses`: which bracket is blamed
- `refused_earliest`: tokens are refused at the earliest, with the right bracket
-/

namespace Fixity

open Checker

variable {g : Grammar}

/-! ## §1 Ways to go on -/

/-- The last accepted token is the one before or one of those that were fed. -/
theorem last_of_feed {c c' : Checker} {ts : List Token} (h : feed g c ts = (c', none)) :
    c'.last = c.last ∨ c'.last ∈ ts := by
  induction ts generalizing c with
  | nil =>
    rw [feed, Prod.mk.injEq] at h
    exact .inl (h.1 ▸ rfl)
  | cons t ts ih =>
    obtain ⟨d, hpass, hrest⟩ := exists_of_feed_cons h
    right
    rcases ih hrest with hd | hts
    · -- a token that passes is the last one
      have hlast : d.last = t := by cases hpass <;> rfl
      simp [hd, hlast]
    · simp [hts]

/-- Behind an operand the partners of the open brackets complete the line. -/
theorem exists_completes_closings {opened : List Token}
    (hopened : ∀ o ∈ opened, g.Registers o ∧ o.kind = .opening) {last : Token}
    (hlast : last.kind.endsOperand = true) :
    ∃ closings : List Token, (∀ c ∈ closings, g.Knows c) ∧
      Completes g ⟨last, opened⟩ closings := by
  induction opened generalizing last with
  | nil => exact ⟨[], nofun, completes_nil.mpr ⟨hlast, rfl⟩⟩
  | cons o opened ih =>
    obtain ⟨hregisters, hk⟩ := hopened o (by simp)
    obtain ⟨b, hb, hbo⟩ := hregisters.exists_opening hk
    have hclose : g.Closes o b.closing := Grammar.closes_iff.mpr ⟨b, hb, hbo, rfl⟩
    -- the partner ends an operand, so the other brackets can be closed behind it
    have hends : b.closing.kind.endsOperand = true := by
      rw [hclose.kind_closing]
      rfl
    obtain ⟨closings, hknown, hcompletes⟩ :=
      ih (fun p hp => hopened p (by simp [hp])) hends
    have hfirst : Passes g ⟨last, o :: opened⟩ b.closing ⟨b.closing, opened⟩ :=
      .closing hlast rfl hclose
    refine ⟨b.closing :: closings, ?_, completes_cons.mpr ⟨_, hfirst, hcompletes⟩⟩
    intro c hc
    rcases List.mem_cons.mp hc with rfl | hc
    · exact .inr hclose.registers_closing
    · exact hknown c hc

/-- **Accepted tokens of a grammar are the beginning of an accepted line**: at most an operand is
missing, and the partners of the open brackets. -/
theorem exists_accepts_append {c : Checker} {ts : List Token} (hts : ∀ t ∈ ts, g.Knows t)
    (h : feed g {} ts = (c, none)) :
    ∃ more : List Token, (∀ t ∈ more, g.Knows t) ∧ Accepts g (ts ++ more) := by
  have hopened : ∀ o ∈ c.opened, g.Registers o ∧ o.kind = .opening := by
    intro o ho
    rcases mem_opened_of_feed h o ho with hnone | ⟨hmem, hk⟩
    · simp at hnone
    · exact ⟨(hts o hmem).resolve_left (by simp [hk]), hk⟩
  suffices hmore : ∃ more : List Token, (∀ t ∈ more, g.Knows t) ∧ Completes g c more by
    obtain ⟨more, hknown, hcompletes⟩ := hmore
    refine ⟨more, hknown, ?_⟩
    rw [Accepts, Completes, List.append_assoc, feed_append_of_none h]
    exact hcompletes
  by_cases hends : c.last.kind.endsOperand = true
  · exact exists_completes_closings hopened hends
  · -- any identifier will do as the operand that is missing
    have hawaits : c.last.kind.awaitsOperand = true := by
      rcases last_of_feed h with hstart | hmem
      · rw [hstart]
        rfl
      · have hsentinel := (hts _ hmem).isSentinel_eq_false
        cases hk : c.last.kind <;>
          simp [hk, Kind.endsOperand, Kind.awaitsOperand, Kind.isSentinel] at hends hsentinel ⊢
    let x : Token := .ofKind .identifier "x"
    have hends : x.kind.endsOperand = true := rfl
    obtain ⟨closings, hknown, hcompletes⟩ := exists_completes_closings hopened hends
    refine ⟨x :: closings, ?_, ?_⟩
    · intro t ht
      rcases List.mem_cons.mp ht with rfl | ht
      · exact .inl rfl
      · exact hknown t ht
    · exact completes_cons.mpr ⟨_, .name hawaits rfl, hcompletes⟩

/-- **No accepted line begins with a refused token** behind those that were accepted. -/
theorem not_accepts_of_refused {c : Checker} {ts : List Token} {t : Token} {r : Rejection}
    (h : feed g {} ts = (c, none)) (hr : (c.check g t).2 = some r) (rest : List Token) :
    ¬ Accepts g (ts ++ t :: rest) := by
  intro haccepts
  rw [Accepts, Completes, List.append_assoc, feed_append_of_none h, List.cons_append] at haccepts
  obtain ⟨c', hpass, -⟩ := feed_cons_eq_none.mp haccepts
  simp [check_eq_none_iff.mpr hpass] at hr

/-! ## §2 The bracket that is blamed -/

namespace Checker

/-- All the ways in which a token is refused. -/
inductive Refuses (g : Grammar) (c : Checker) (t : Token) : Rejection → Prop where
  | misplaced : Refuses g c t (.misplaced c.last t)
  | unopened : t.kind = .closing → c.opened = [] → Refuses g c t (.unopened t)
  | mismatched {o : Token} {rest : List Token} : t.kind = .closing → c.opened = o :: rest →
      Refuses g c t (.mismatched o t (g.closingFor? o))
  | unclosed {o : Token} {rest : List Token} : t.kind = .finish → c.opened = o :: rest →
      Refuses g c t (.unclosed o (g.closingFor? o))

theorem refuses_of_bracket {c : Checker} {t : Token} {opened : List Token} {r : Rejection}
    (h : bracket g c.opened t = (opened, some r)) : Refuses g c t r := by
  unfold bracket at h
  split at h
  · simp at h
  · next hk ho =>
    obtain ⟨-, rfl⟩ : opened = [] ∧ .unopened t = r := by simpa using h
    exact .unopened hk ho
  · next o rest hk ho =>
    dsimp only at h
    split at h
    · simp at h
    · obtain ⟨-, rfl⟩ : rest = opened ∧ .mismatched o t (g.closingFor? o) = r := by simpa using h
      exact .mismatched hk ho
  · simp at h

theorem refuses_of_refusal? {c : Checker} {t : Token} {r : Rejection}
    (h : refusal? g c.last c.opened t = some r) : Refuses g c t r := by
  unfold refusal? at h
  split at h
  · split at h
    · next o rest hk ho =>
      obtain rfl : .unclosed o (g.closingFor? o) = r := by simpa using h
      exact .unclosed hk ho
    · simp at h
  · obtain rfl : .misplaced c.last t = r := by simpa using h
    exact .misplaced

/-- A token that is a bracket is refused for its place only, once its bracket is in order. -/
theorem eq_misplaced_of_refusal? {last t : Token} {opened : List Token} {r : Rejection}
    (hk : t.kind ≠ .finish) (h : refusal? g last opened t = some r) : r = .misplaced last t := by
  unfold refusal? at h
  split at h
  · split at h
    · next hfinish => exact absurd hfinish hk
    · simp at h
  · simpa [eq_comm] using h

/-- **What a refusal says**: there are no other ways to refuse a token. -/
theorem refuses_of_check {c : Checker} {t : Token} {r : Rejection}
    (h : (c.check g t).2 = some r) : Refuses g c t r := by
  rw [check] at h
  cases hb : bracket g c.opened t with
  | mk opened f =>
    cases f with
    | some f =>
      obtain rfl : f = r := by simpa [hb] using h
      exact refuses_of_bracket hb
    | none =>
      have hr : refusal? g c.last opened t = some r := by
        cases hr : refusal? g c.last opened t with
        | none => simp [hb, hr] at h
        | some f => simpa [hb, hr] using h
      by_cases hk : t.kind = .finish
      · -- the end of the line opens and closes nothing
        obtain rfl : opened = c.opened := by
          rcases bracket_eq_none_iff.mp hb with ⟨hopen, -⟩ | ⟨o, rest, -, hclose, -⟩ | ⟨-, -, heq⟩
          · simp [hk] at hopen
          · exact absurd hclose.kind_closing (by simp [hk])
          · exact heq
        exact refuses_of_refusal? hr
      · rw [eq_misplaced_of_refusal? hk hr]
        exact .misplaced

end Checker

namespace Rejection

/-- What is left of the brackets bears a refusal out: nothing, if a closing bracket comes without
its opening one; and if a bracket is mismatched or unclosed, the one that is left last is the
first that is reported. -/
structure Blames (r : Rejection) (left : List Token) : Prop where
  unopened : r.error.category = .unopened → left = []
  innermost : r.error.category = .mismatched ∨ r.error.category = .unclosed →
    ∃ o, left.getLast? = some o ∧ r.error.tokens.head? = some o

/-- **Which bracket is blamed**: the innermost one that is open. -/
theorem blames_of_refuses {c : Checker} {t : Token} {r : Rejection} (h : Refuses g c t r) :
    r.Blames c.opened.reverse := by
  cases h with
  | misplaced => exact ⟨by simp [error], by simp [error]⟩
  | unopened _ ho => exact ⟨by simp [ho], by simp [error]⟩
  | mismatched _ ho | unclosed _ ho => exact ⟨by simp [error], by simp [error, ho]⟩

end Rejection

/-! ## §3 The earliest token -/

/-- **Tokens are refused at the earliest, with the right bracket.** Every line has tokens, and the
end of the line comes behind them. If the first of these to be refused has the number `i`, the
tokens before it are the beginning of an accepted list, but with the refused one they are not;
and if it is the end, the tokens as they stand are not accepted. In whatever order the brackets
before it are cancelled, the same ones are left, and the right one of these is blamed. -/
theorem refused_earliest (g : Grammar) (line : String) :
    ∃ tokens, g.tokenize line = .ok tokens ∧
      ∀ (index : Int) (span : Option Span) (i : Nat) (t : Token) (c : Checker) (r : Rejection),
        (tokens ++ [Token.finish.placed index span])[i]? = some t →
        feed g {} (tokens.take i) = (c, none) → (c.check g t).2 = some r →
          (∃ more : List Token, (∀ x ∈ more, g.Knows x) ∧ Accepts g (tokens.take i ++ more)) ∧
          (i < tokens.length → ∀ rest, ¬ Accepts g (tokens.take (i + 1) ++ rest)) ∧
          (i = tokens.length → ¬ Accepts g tokens) ∧
          ∃ left, (∀ us, Residue g (tokens.take i) us ↔ us = left) ∧ r.Blames left := by
  obtain ⟨tokens, htokens⟩ := g.exists_tokenize line
  refine ⟨tokens, htokens, ?_⟩
  intro index span i t c r hi hfeed hr
  refine ⟨?_, ?_, ?_, c.opened.reverse, ?_, Rejection.blames_of_refuses (refuses_of_check hr)⟩
  · exact exists_accepts_append
      (fun x hx => Grammar.tokenize_knows htokens x (List.mem_of_mem_take hx)) hfeed
  · intro hlt rest
    -- the refused token is the last one of those that are kept
    rw [List.getElem?_append_left hlt] at hi
    have hkept : tokens.take (i + 1) = tokens.take i ++ [t] := by
      rw [List.take_add_one, hi, Option.toList_some]
    rw [hkept, List.append_assoc]
    exact not_accepts_of_refused hfeed hr rest
  · rintro rfl haccepts
    rw [List.getElem?_append_right (le_refl _), Nat.sub_self] at hi
    obtain rfl : Token.finish.placed index span = t := by simpa using hi
    -- wherever the end stands, it passes if the tokens are accepted
    rw [List.take_length] at hfeed
    have hpasses := (feed_append_finish (e := Token.finish.placed index span) rfl).mpr haccepts
    rw [feed_append_of_none hfeed] at hpasses
    obtain ⟨c', hpass, -⟩ := feed_cons_eq_none.mp hpasses
    simp [check_eq_none_iff.mpr hpass] at hr
  · intro us
    have hresidue := residue_of_feed hfeed
    constructor
    · intro h
      exact h.unique hresidue
    · rintro rfl
      exact hresidue

/-- Round brackets and no operations. -/
def roundBrackets : Grammar where
  classes := []
  brackets := [⟨.ofKind .opening "(", .ofKind .closing ")"⟩]
  wellFormed := ⟨by decide, by decide, by decide, by decide, by decide⟩

/-- The tokens of the line `( ( x )`. -/
def innerClosed : List Token :=
  [⟨⟨.opening, "("⟩, 0, some ⟨0, 1, 1⟩⟩, ⟨⟨.opening, "("⟩, 1, some ⟨2, 3, 1⟩⟩,
    ⟨⟨.identifier, "x"⟩, 2, some ⟨4, 5, 1⟩⟩, ⟨⟨.closing, ")"⟩, 3, some ⟨6, 7, 1⟩⟩]

theorem tokenize_innerClosed : roundBrackets.tokenize "( ( x )" = .ok innerClosed := by
  cbv

/-- The end of the line is refused, and the bracket to blame is the first one: the second is
cancelled. -/
theorem refused_earliest_innerClosed :
    ¬ Accepts roundBrackets innerClosed ∧ ∃ left,
      (∀ us, Residue roundBrackets innerClosed us ↔ us = left) ∧
        left.getLast? = some ⟨⟨.opening, "("⟩, 0, some ⟨0, 1, 1⟩⟩ := by
  obtain ⟨tokens, htokens, hrefused⟩ := refused_earliest roundBrackets "( ( x )"
  obtain rfl : innerClosed = tokens := Except.ok.inj (tokenize_innerClosed.symm.trans htokens)
  obtain ⟨-, -, hend, left, hleft, hblames⟩ := hrefused 0 none 4 (Token.finish.placed 0 none)
    ⟨⟨⟨.closing, ")"⟩, 3, some ⟨6, 7, 1⟩⟩, [⟨⟨.opening, "("⟩, 0, some ⟨0, 1, 1⟩⟩]⟩
    (.unclosed ⟨⟨.opening, "("⟩, 0, some ⟨0, 1, 1⟩⟩ (some (.ofKind .closing ")")))
    (by decide) (by decide) (by decide)
  obtain ⟨o, ho, hfirst⟩ := hblames.innermost (.inr rfl)
  exact ⟨hend rfl, left, hleft, ho.trans hfirst.symm⟩

end Fixity
