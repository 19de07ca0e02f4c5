import Fixity.Engine
import Fixity.Proofs.Grammar.Registered

/-!
# Ranks of registered tokens

The engine only ever compares two operations, a bracket with an operation, or a sentinel with
one of these. Each of these comparisons has an answer, and where the operation comes before the
brackets in rank, the answer for a bracket or a sentinel is always the same one. In a grammar
with fewer classes than the rank of a bracket all operations do.

## Main statements

- `exists_yields`: comparing two operations never fails
- `yields_opening`, `yields_start`: no bracket and no beginning of a line gives way to an
  operation
- `yields_finish`: every operation gives way to the end of the line
-/

namespace Fixity

namespace Grammar

variable {g : Grammar}

/-! ## §1 Ranks -/

theorem find?_eq_getElem?_of_findIdx? {α : Type} {p : α → Bool} {l : List α} {i : Nat}
    (h : l.findIdx? p = some i) : l.find? p = l[i]? := by
  induction l generalizing i with
  | nil => simp at h
  | cons a l ih =>
    rw [List.findIdx?_cons] at h
    by_cases ha : p a = true
    · obtain rfl : 0 = i := by simpa [ha] using h
      simp [ha]
    · simp only [ha] at h
      obtain ⟨j, hj, rfl⟩ := Option.map_eq_some_iff.mp h
      simp [ha, ih hj]

theorem rank?_eq_findIdx? {x : Lexeme} (hk : x.kind.isOperation = true) :
    g.rank? x = g.classes.findIdx? (·.has x) := by
  -- neither of the fixed ranks applies to an operation
  have hsentinel : ¬ (x = Token.start.toLexeme ∨ x = Token.finish.toLexeme) := by
    rintro (rfl | rfl)
    · simp [Token.start, Token.ofKind, Kind.isOperation] at hk
    · simp [Token.finish, Token.ofKind, Kind.isOperation] at hk
  have hbracket : ¬ (g.brackets.any fun b =>
      b.opening.toLexeme = x ∨ b.closing.toLexeme = x) = true := by
    rw [List.any_eq_true]
    rintro ⟨b, hb, hx⟩
    rcases of_decide_eq_true hx with rfl | rfl
    · simp [kind_opening hb, Kind.isOperation] at hk
    · simp [kind_closing hb, Kind.isOperation] at hk
  rw [rank?, if_neg hsentinel, if_neg hbracket]

/-- The rank of an operation is the position of the first class that has it, and its
associativity that of this class. -/
theorem exists_rank? {x : Lexeme} (h : g.Registers x) (hk : x.kind.isOperation = true) :
    ∃ i c, g.rank? x = some i ∧ g.classes[i]? = some c ∧
      g.associativity? x = some c.associativity := by
  obtain ⟨t, ht, rfl⟩ := h.exists_operation hk
  obtain ⟨c, hc, htc⟩ := mem_operations.mp ht
  have hhas : c.has t = true := by
    rw [PrecedenceClass.has, List.any_eq_true]
    exact ⟨t, htc, by simp⟩
  -- so the search for a class with this lexeme comes to an end
  have hsome : (g.classes.findIdx? (·.has t)).isSome := by
    rw [List.findIdx?_isSome, List.any_eq_true]
    exact ⟨c, hc, hhas⟩
  obtain ⟨i, hi⟩ := Option.isSome_iff_exists.mp hsome
  have hlt : i < g.classes.length := (List.findIdx?_eq_some_iff_findIdx_eq.mp hi).1
  refine ⟨i, g.classes[i], ?_, List.getElem?_eq_getElem hlt, ?_⟩
  · rw [rank?_eq_findIdx? hk, hi]
  · rw [associativity?, find?_eq_getElem?_of_findIdx? hi, List.getElem?_eq_getElem hlt,
      Option.map_some]

theorem Registers.rank?_opening {o : Lexeme} (h : g.Registers o) (hk : o.kind = .opening) :
    g.rank? o = some bracketRank := by
  obtain ⟨b, hb, rfl⟩ := h.exists_opening hk
  have hsentinel : ¬ (b.opening.toLexeme = Token.start.toLexeme ∨
      b.opening.toLexeme = Token.finish.toLexeme) := by
    rintro (heq | heq)
    · simp [heq, Token.start, Token.ofKind] at hk
    · simp [heq, Token.finish, Token.ofKind] at hk
  have hbracket : (g.brackets.any fun a =>
      a.opening.toLexeme = b.opening.toLexeme ∨ a.closing.toLexeme = b.opening.toLexeme) = true := by
    rw [List.any_eq_true]
    exact ⟨b, hb, by simp⟩
  rw [rank?, if_neg hsentinel, if_pos hbracket]

theorem rank?_start : g.rank? Token.start = some sentinelRank := by
  simp [rank?]

theorem rank?_finish : g.rank? Token.finish = some sentinelRank := by
  simp [rank?]

/-! ## §2 Comparisons -/

theorem bindsTighter_of_ne {x y : Lexeme} {i j : Nat} (hx : g.rank? x = some i)
    (hy : g.rank? y = some j) (hne : i ≠ j) : g.bindsTighter x y = .ok (decide (i < j)) := by
  simp [bindsTighter, hx, hy, hne]

theorem bindsTighter_of_lt {x y : Lexeme} {i j : Nat} (hx : g.rank? x = some i)
    (hy : g.rank? y = some j) (h : i < j) : g.bindsTighter x y = .ok true := by
  rw [bindsTighter_of_ne hx hy (by omega)]
  simp [h]

theorem bindsTighter_of_gt {x y : Lexeme} {i j : Nat} (hx : g.rank? x = some i)
    (hy : g.rank? y = some j) (h : j < i) : g.bindsTighter x y = .ok false := by
  rw [bindsTighter_of_ne hx hy (by omega)]
  simp only [Except.ok.injEq, decide_eq_false_iff_not]
  omega

/-- Only an operation has an associativity that could decide between equals. -/
theorem bindsTighter_tie {x y : Lexeme} {i : Nat} (hx : g.rank? x = some i)
    (hy : g.rank? y = some i) (hk : ¬ x.kind.isOperation = true) :
    g.bindsTighter x y = .error (.noPrecedence x y) := by
  have hnone : g.classes.find? (·.has x) = none := by
    rw [List.find?_eq_none]
    intro c hc hhas
    obtain ⟨t, ht, htx⟩ := List.any_eq_true.mp hhas
    apply hk
    rw [← of_decide_eq_true htx]
    exact isOperation_of_mem_operations (mem_operations.mpr ⟨c, hc, ht⟩)
  simp [bindsTighter, hx, hy, associativity?, hnone]

theorem exists_bindsTighter {x y : Lexeme} (hx : g.Registers x) (hkx : x.kind.isOperation = true)
    (hy : g.Registers y) (hky : y.kind.isOperation = true) :
    ∃ b, g.bindsTighter x y = .ok b := by
  obtain ⟨i, c, hi, -, hc⟩ := exists_rank? hx hkx
  obtain ⟨j, d, hj, -, -⟩ := exists_rank? hy hky
  -- between equals the associativity of the class decides
  by_cases hij : i = j
  · exact ⟨decide (c.associativity = .left), by simp [bindsTighter, hi, hj, hij, hc]⟩
  · exact ⟨_, bindsTighter_of_ne hi hj hij⟩

/-- What is not tighter is known not to be. -/
theorem bindsTighter_eq_false {x y : Lexeme} (hx : g.Registers x)
    (hkx : x.kind.isOperation = true) (hy : g.Registers y) (hky : y.kind.isOperation = true)
    (h : ¬ g.bindsTighter x y = .ok true) : g.bindsTighter x y = .ok false := by
  obtain ⟨v, hv⟩ := exists_bindsTighter hx hkx hy hky
  cases v with
  | false => exact hv
  | true => exact absurd hv h

/-- A known token that comes before the brackets in rank if it is an operation. -/
def Supports (g : Grammar) (x : Lexeme) : Prop :=
  g.Knows x ∧ (x.kind.isOperation = true → ∃ i, g.rank? x = some i ∧ i < bracketRank)

/-- With few classes every operation does. -/
theorem Knows.supports (few : g.classes.length < bracketRank) {x : Lexeme} (h : g.Knows x) :
    g.Supports x := by
  refine ⟨h, ?_⟩
  intro hk
  -- the rank is a position in the list of classes
  obtain ⟨i, c, hi, hc, -⟩ := exists_rank? (h.registers hk) hk
  have hlt : i < g.classes.length := (List.getElem?_eq_some_iff.mp hc).1
  exact ⟨i, hi, by omega⟩

theorem bracketRank_lt_sentinelRank : bracketRank < sentinelRank := by
  decide

/-! ## §3 What the engine compares -/

/-- Between two operations the engine asks the grammar. -/
theorem yields_operation {s t : Token} (hk : t.kind.isOperation = true) :
    g.yields s t = g.bindsTighter s t := by
  have hne : ¬ (s.kind = .start ∧ t.kind = .finish) := by
    rintro ⟨-, h⟩
    simp [h, Kind.isOperation] at hk
  rw [yields, if_neg hne]

theorem exists_yields {s t : Token} (hs : g.Registers s) (hks : s.kind.isOperation = true)
    (ht : g.Registers t) (hkt : t.kind.isOperation = true) : ∃ b, g.yields s t = .ok b := by
  rw [yields_operation hkt]
  exact exists_bindsTighter hs hks ht hkt

theorem yields_opening {o t : Token} (ho : g.Registers o) (hko : o.kind = .opening)
    (ht : g.Supports t) (hkt : t.kind.isOperation = true) : g.yields o t = .ok false := by
  obtain ⟨i, hi, hlt⟩ := ht.2 hkt
  rw [yields_operation hkt]
  exact bindsTighter_of_gt (ho.rank?_opening hko) hi hlt

theorem yields_start {t : Token} (ht : g.Supports t) (hkt : t.kind.isOperation = true) :
    g.yields .start t = .ok false := by
  obtain ⟨i, hi, hlt⟩ := ht.2 hkt
  -- the sentinel comes after everything in rank
  have hranks := bracketRank_lt_sentinelRank
  rw [yields_operation hkt]
  exact bindsTighter_of_gt rank?_start hi (by omega)

theorem yields_finish {s e : Token} {i : Nat} (hi : g.rank? s = some i) (hle : i ≤ bracketRank)
    (hk : s.kind ≠ .start) (he : e.toLexeme = Token.finish.toLexeme) :
    g.yields s e = .ok true := by
  have hranks := bracketRank_lt_sentinelRank
  have hne : ¬ (s.kind = .start ∧ e.kind = .finish) := fun h => hk h.1
  have hrank : g.rank? e = some sentinelRank := he ▸ rank?_finish
  rw [yields, if_neg hne]
  exact bindsTighter_of_lt hi hrank (by omega)

theorem yields_start_finish {e : Token} (he : e.kind = .finish) :
    g.yields .start e = .ok false := by
  rw [yields, if_pos ⟨rfl, he⟩]

/-! ## §4 Prefix operations in the tightest class -/

/-- All prefix operations, if there are any, are in the tightest class, which associates to the
right. -/
def PrefixTightest (g : Grammar) : Prop :=
  ∀ t ∈ g.operations, t.kind = .unary →
    ∃ c, g.classes.head? = some c ∧ c.associativity = .right ∧ t ∈ c.operations

/-- No operation is tighter than one of the tightest class, and where this class associates to
the right, those of the class are not tighter than each other either. -/
theorem PrefixTightest.bindsTighter (h : g.PrefixTightest) {o u : Token} (ho : g.Registers o)
    (hko : o.kind.isOperation = true) (hu : g.Registers u) (hku : u.kind = .unary) :
    g.bindsTighter o u = .ok false := by
  obtain ⟨t, ht, htu⟩ := hu.exists_operation (by simp [hku, Kind.isOperation])
  have hkt : t.kind = .unary := by rw [htu, hku]
  obtain ⟨c, hc, hright, htc⟩ := h t ht hkt
  obtain ⟨i, d, hi, hd, ha⟩ := exists_rank? ho hko
  have hhas : c.has u = true := by
    rw [PrecedenceClass.has, List.any_eq_true]
    exact ⟨t, htc, by simp [htu]⟩
  -- the search for the class of `u` ends at the first one
  have hzero : g.rank? u = some 0 := by
    rw [rank?_eq_findIdx? (by simp [hku, Kind.isOperation])]
    obtain ⟨cs, hcs⟩ := List.head?_eq_some_iff.mp hc
    simp [hcs, List.findIdx?_cons, hhas]
  by_cases hi0 : i = 0
  · -- a tie, which the tightest class decides
    subst hi0
    obtain rfl : c = d := by
      rw [List.head?_eq_getElem?, hd] at hc
      exact (Option.some.inj hc).symm
    simp [Grammar.bindsTighter, hi, hzero, ha, hright]
  · exact bindsTighter_of_gt hi hzero (by omega)

end Grammar

end Fixity
