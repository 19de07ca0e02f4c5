import Fixity.Proofs.Checker.Expression
import Mathlib.Logic.Relation

/-!
# Cancelling brackets

Which brackets are open at some place of a line can be said without a stack. Of the brackets
before that place an opening one and its partner directly behind it are struck out, and again, as
long as there are such two. In whatever order this is done, the same brackets are left, and behind
tokens that the checker has accepted they are the ones that it holds open.

## Main statements

- `Cancels.diamond`: two different cancellations can both be done
- `Residue.unique`: what is left does not depend on the order
- `residue_of_feed`: behind accepted tokens the open brackets are left
-/

namespace Fixity

open Checker Relation

variable {g : Grammar}

/-! ## §1 One pair -/

/-- The brackets of a list. -/
def bracketsOf (ts : List Token) : List Token :=
  ts.filter fun t => t.kind = .opening ∨ t.kind = .closing

/-- The second list is the first without an opening bracket and its partner side by side. -/
inductive Cancels (g : Grammar) : List Token → List Token → Prop where
  | pair {before behind : List Token} {o c : Token} :
      g.Closes o c → Cancels g (before ++ o :: c :: behind) (before ++ behind)

theorem cancels_front {o c : Token} (h : g.Closes o c) (behind : List Token) :
    Cancels g (o :: c :: behind) behind :=
  @Cancels.pair g [] behind o c h

theorem Cancels.cons {ts us : List Token} (h : Cancels g ts us) (x : Token) :
    Cancels g (x :: ts) (x :: us) := by
  obtain ⟨hclose⟩ := h
  rw [← List.cons_append, ← List.cons_append]
  exact .pair hclose

/-- The pair is at the front, or behind the first bracket. -/
theorem cancels_cons_iff {x : Token} {ts us : List Token} :
    Cancels g (x :: ts) us ↔
      (∃ c : Token, g.Closes x c ∧ ts = c :: us) ∨ ∃ vs, us = x :: vs ∧ Cancels g ts vs := by
  constructor
  · intro h
    generalize hxs : x :: ts = xs at h
    obtain @⟨before, behind, o, c, hclose⟩ := h
    cases before with
    | nil =>
      obtain ⟨rfl, rfl⟩ := List.cons.inj hxs
      exact .inl ⟨c, hclose, rfl⟩
    | cons y before =>
      obtain ⟨rfl, rfl⟩ := List.cons.inj hxs
      exact .inr ⟨before ++ behind, rfl, .pair hclose⟩
  · rintro (⟨c, hclose, rfl⟩ | ⟨vs, rfl, h⟩)
    · exact cancels_front hclose us
    · exact h.cons x

/-- A closing bracket opens nothing, so a pair at the front is not in the way of another one. -/
theorem Cancels.of_pair {o c : Token} {ts us : List Token} (hclose : g.Closes o c)
    (h : Cancels g (c :: ts) us) : ∃ vs, us = c :: vs ∧ Cancels g ts vs := by
  rcases cancels_cons_iff.mp h with ⟨d, hd, -⟩ | hvs
  · have hk := hclose.kind_closing
    simp [hd.kind_opening] at hk
  · exact hvs

/-! ## §2 What is left -/

/-- **Two different cancellations can both be done**, one after the other. -/
theorem Cancels.diamond {xs ys zs : List Token} (hy : Cancels g xs ys) (hz : Cancels g xs zs) :
    ys = zs ∨ ∃ ws, Cancels g ys ws ∧ Cancels g zs ws := by
  induction xs generalizing ys zs with
  | nil =>
    generalize hxs : ([] : List Token) = xs at hy
    obtain ⟨-⟩ := hy
    simp at hxs
  | cons x xs ih =>
    rcases cancels_cons_iff.mp hy with ⟨c, hc, rfl⟩ | ⟨ys', rfl, hy'⟩
    · rcases cancels_cons_iff.mp hz with ⟨d, -, hd⟩ | ⟨zs', rfl, hz'⟩
      · exact .inl (List.cons.inj hd).2
      · -- the other pair is behind the one at the front
        obtain ⟨ws, rfl, hws⟩ := Cancels.of_pair hc hz'
        exact .inr ⟨ws, hws, cancels_front hc ws⟩
    · rcases cancels_cons_iff.mp hz with ⟨c, hc, rfl⟩ | ⟨zs', rfl, hz'⟩
      · obtain ⟨ws, rfl, hws⟩ := Cancels.of_pair hc hy'
        exact .inr ⟨ws, cancels_front hc ws, hws⟩
      · -- both pairs are behind the first bracket
        rcases ih hy' hz' with rfl | ⟨ws, hyw, hzw⟩
        · exact .inl rfl
        · exact .inr ⟨x :: ws, hyw.cons x, hzw.cons x⟩

/-- What is left of the brackets of a list when nothing more can be cancelled. -/
def Residue (g : Grammar) (ts left : List Token) : Prop :=
  ReflTransGen (Cancels g) (bracketsOf ts) left ∧ ∀ us, ¬ Cancels g left us

/-- **What is left does not depend on the order** in which pairs are cancelled. -/
theorem Residue.unique {ts left left' : List Token} (h : Residue g ts left)
    (h' : Residue g ts left') : left = left' := by
  have hjoin : Join (ReflTransGen (Cancels g)) left left' := by
    apply church_rosser _ h.1 h'.1
    intro xs ys zs hy hz
    rcases hy.diamond hz with rfl | ⟨ws, hyw, hzw⟩
    · exact ⟨ys, .refl, .refl⟩
    · exact ⟨ws, .single hyw, .single hzw⟩
  -- neither of the two can be cancelled further
  have hstuck : ∀ {xs us : List Token}, (∀ vs, ¬ Cancels g xs vs) →
      ReflTransGen (Cancels g) xs us → xs = us := by
    intro xs us hno hxs
    rcases hxs.cases_head with heq | ⟨vs, hstep, -⟩
    · exact heq
    · exact absurd hstep (hno vs)
  obtain ⟨us, hus, hus'⟩ := hjoin
  exact (hstuck h.2 hus).trans (hstuck h'.2 hus').symm

/-- Among opening brackets there is nothing to cancel. -/
theorem not_cancels_of_opening {ts : List Token} (h : ∀ t ∈ ts, t.kind = .opening)
    (us : List Token) : ¬ Cancels g ts us := by
  intro hcancels
  obtain @⟨before, behind, o, c, hclose⟩ := hcancels
  have hk := h c (by simp)
  simp [hclose.kind_closing] at hk

/-! ## §3 The open brackets of the checker -/

/-- What is open behind accepted tokens was open before them or is one of them. -/
theorem mem_opened_of_feed {c c' : Checker} {ts : List Token} (h : feed g c ts = (c', none)) :
    ∀ o ∈ c'.opened, o ∈ c.opened ∨ o ∈ ts ∧ o.kind = .opening := by
  induction ts generalizing c with
  | nil =>
    rw [feed, Prod.mk.injEq] at h
    rw [← h.1]
    exact fun o ho => .inl ho
  | cons t ts ih =>
    obtain ⟨d, hpass, hfeed⟩ := exists_of_feed_cons h
    intro o ho
    rcases ih hfeed o ho with hd | ⟨hts, hk⟩
    · cases hpass with
      | name | signed | chain => exact .inl hd
      | opening _ hk =>
        rcases List.mem_cons.mp hd with rfl | hd
        · exact .inr ⟨by simp, hk⟩
        · exact .inl hd
      | closing _ ho' _ => exact .inl (by simp [ho', hd])
      | finish => simp at hd
    · exact .inr ⟨by simp [hts], hk⟩

/-- While tokens are accepted, the open brackets and the brackets that come cancel to those that
are open afterwards. -/
theorem cancels_of_feed {c c' : Checker} {ts : List Token} (h : feed g c ts = (c', none)) :
    ReflTransGen (Cancels g) (c.opened.reverse ++ bracketsOf ts) c'.opened.reverse := by
  induction ts generalizing c with
  | nil =>
    rw [feed, Prod.mk.injEq] at h
    simp [bracketsOf, h.1, ReflTransGen.refl]
  | cons t ts ih =>
    obtain ⟨d, hpass, hfeed⟩ := exists_of_feed_cons h
    have hrest := ih hfeed
    cases hpass with
    | name _ hk | signed _ hk | chain _ hk => simpa [bracketsOf, hk] using hrest
    | opening _ hk => simpa [bracketsOf, hk] using hrest
    | @closing o rest _ ho hclose =>
      -- the closing bracket comes directly behind the innermost open one
      have hsplit : c.opened.reverse ++ bracketsOf (t :: ts) =
          rest.reverse ++ o :: t :: bracketsOf ts := by
        simp [bracketsOf, ho, hclose.kind_closing]
      rw [hsplit]
      exact .head (.pair hclose) hrest
    | finish _ ho hk => simpa [bracketsOf, ho, hk] using hrest

/-- **Behind accepted tokens the open brackets are left**, the innermost one last. -/
theorem residue_of_feed {c : Checker} {ts : List Token} (h : feed g {} ts = (c, none)) :
    Residue g ts c.opened.reverse := by
  refine ⟨by simpa using cancels_of_feed h, ?_⟩
  apply not_cancels_of_opening
  intro o ho
  -- no bracket was open in the beginning
  rcases mem_opened_of_feed h o (List.mem_reverse.mp ho) with hnone | ⟨-, hk⟩
  · simp at hnone
  · exact hk

end Fixity
