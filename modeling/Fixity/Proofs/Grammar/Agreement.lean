import Fixity.Proofs.Grammar.Ranks

/-!
# Grammars that agree on a line

Two grammars agree on a line if they say the same about the symbols that occur in it: which these
are, of what kind each of them is, which bracket is the partner of each bracket, and which of two
operations binds tighter. Nothing is asked of the other symbols, nor of the numbers and the order of
the classes: a rank may be another one as long as the comparisons come out the same.

## Main statements

- `AgreeOn.refl`, `AgreeOn.trans`: agreement is a preorder
- `AgreeOn.registers`: the same lexemes of a line are registered
- `AgreeOn.yields`: the engine compares tokens of the line with the same outcome
-/

namespace Fixity

/-- The symbol of a lexeme is a part of the line. -/
def Lexeme.OccursIn (x : Lexeme) (line : String) : Prop :=
  x.symbol.toList <:+: line.toList

namespace Grammar

variable {g g' g'' : Grammar} {line : String}

theorem mem_symbols {s : String} : s ∈ g.symbols ↔ ∃ t ∈ g.tokens, t.symbol = s := by
  simp [symbols]

/-! ## §1 Agreement -/

/-- What two grammars say about the symbols that occur in a line is the same. -/
structure AgreeOn (line : String) (g g' : Grammar) : Prop where
  /-- The same symbols occur. -/
  symbols : ∀ s : String, s.toList <:+: line.toList → (s ∈ g.symbols ↔ s ∈ g'.symbols)
  /-- Each of them is of the same kind. -/
  kinds : ∀ t ∈ g.tokens, ∀ t' ∈ g'.tokens, t.OccursIn line → t.symbol = t'.symbol →
    t.kind = t'.kind
  /-- Each opening bracket has the same partner, whether this occurs or not. -/
  closings : ∀ o ∈ g.tokens, o.kind = .opening → o.OccursIn line →
    (g.closingFor? o).map (·.toLexeme) = (g'.closingFor? o).map (·.toLexeme)
  /-- Each closing bracket has. -/
  openings : ∀ c ∈ g.tokens, c.kind = .closing → c.OccursIn line →
    (g.openingFor? c).map (·.toLexeme) = (g'.openingFor? c).map (·.toLexeme)
  /-- Of two operations the same one binds tighter. -/
  tighter : ∀ s ∈ g.operations, ∀ t ∈ g.operations, s.OccursIn line → t.OccursIn line →
    g.bindsTighter s t = g'.bindsTighter s t

theorem AgreeOn.refl (line : String) (g : Grammar) : AgreeOn line g g where
  symbols _ _ := .rfl
  kinds t ht t' ht' _ h := by
    have hlookup : g.lookup? t.symbol = some t := lookup?_eq_some_iff.mpr ⟨ht, rfl⟩
    rw [lookup?_eq_some_iff.mpr ⟨ht', h.symm⟩] at hlookup
    rw [Option.some.inj hlookup]
  closings _ _ _ _ := rfl
  openings _ _ _ _ := rfl
  tighter _ _ _ _ _ _ := rfl

/-- A lexeme is its kind and its symbol. -/
theorem lexeme_eq {x y : Lexeme} (hkind : x.kind = y.kind) (hsymbol : x.symbol = y.symbol) :
    x = y := by
  cases x
  cases y
  rw [Lexeme.mk.injEq]
  exact ⟨hkind, hsymbol⟩

/-- **The same lexemes that occur in the line are registered.** -/
theorem AgreeOn.registers (h : AgreeOn line g g') {x : Lexeme} (hx : x.OccursIn line) :
    g.Registers x ↔ g'.Registers x := by
  have hsymbols := h.symbols x.symbol hx
  rw [mem_symbols, mem_symbols] at hsymbols
  constructor
  · rintro ⟨t, ht, rfl⟩
    obtain ⟨t', ht', hsymbol⟩ := hsymbols.mp ⟨t, ht, rfl⟩
    exact ⟨t', ht', lexeme_eq (h.kinds t ht t' ht' hx hsymbol.symm).symm hsymbol⟩
  · rintro ⟨t', ht', rfl⟩
    obtain ⟨t, ht, hsymbol⟩ := hsymbols.mpr ⟨t', ht', rfl⟩
    have hoccurs : t.OccursIn line := by
      rw [Lexeme.OccursIn, hsymbol]
      exact hx
    exact ⟨t, ht, lexeme_eq (h.kinds t ht t' ht' hoccurs hsymbol) hsymbol⟩

theorem AgreeOn.knows (h : AgreeOn line g g') {x : Lexeme} (hx : x.OccursIn line) :
    g.Knows x ↔ g'.Knows x := by
  rw [Knows, Knows, h.registers hx]

section

variable {x y : Lexeme}

theorem AgreeOn.closingFor? (h : AgreeOn line g g') (hx : x.OccursIn line) (hreg : g.Registers x)
    (hk : x.kind = .opening) :
    (g.closingFor? x).map (·.toLexeme) = (g'.closingFor? x).map (·.toLexeme) := by
  obtain ⟨o, ho, rfl⟩ := hreg
  exact h.closings o ho hk hx

theorem AgreeOn.openingFor? (h : AgreeOn line g g') (hx : x.OccursIn line) (hreg : g.Registers x)
    (hk : x.kind = .closing) :
    (g.openingFor? x).map (·.toLexeme) = (g'.openingFor? x).map (·.toLexeme) := by
  obtain ⟨c, hc, rfl⟩ := hreg
  exact h.openings c hc hk hx

theorem AgreeOn.bindsTighter (h : AgreeOn line g g') (hx : x.OccursIn line) (hy : y.OccursIn line)
    (hregx : g.Registers x) (hregy : g.Registers y) (hkx : x.kind.isOperation = true)
    (hky : y.kind.isOperation = true) : g.bindsTighter x y = g'.bindsTighter x y := by
  obtain ⟨s, hs, rfl⟩ := hregx.exists_operation hkx
  obtain ⟨t, ht, rfl⟩ := hregy.exists_operation hky
  exact h.tighter s hs t ht hx hy

end

theorem registers_of_mem {t : Token} (h : t ∈ g.tokens) : g.Registers t :=
  ⟨t, h, rfl⟩

theorem registers_of_mem_operations {t : Token} (h : t ∈ g.operations) : g.Registers t :=
  registers_of_mem (mem_tokens.mpr (.inl h))

theorem AgreeOn.trans (h : AgreeOn line g g') (h' : AgreeOn line g' g'') :
    AgreeOn line g g'' where
  symbols s hs := (h.symbols s hs).trans (h'.symbols s hs)
  kinds t ht t'' ht'' hoccurs hsymbol := by
    obtain ⟨t', ht', hlexeme⟩ := (h.registers hoccurs).mp (registers_of_mem ht)
    rw [← hlexeme] at hoccurs hsymbol ⊢
    exact h'.kinds t' ht' t'' ht'' hoccurs hsymbol
  closings o ho hk hoccurs := by
    have hreg := registers_of_mem ho
    rw [h.closingFor? hoccurs hreg hk,
      h'.closingFor? hoccurs ((h.registers hoccurs).mp hreg) hk]
  openings c hc hk hoccurs := by
    have hreg := registers_of_mem hc
    rw [h.openingFor? hoccurs hreg hk,
      h'.openingFor? hoccurs ((h.registers hoccurs).mp hreg) hk]
  tighter s hs t ht hoccurs hoccurs' := by
    have hregs := (h.registers hoccurs).mp (registers_of_mem_operations hs)
    have hregt := (h.registers hoccurs').mp (registers_of_mem_operations ht)
    rw [h.tighter s hs t ht hoccurs hoccurs', h'.bindsTighter hoccurs hoccurs' hregs hregt
      (isOperation_of_mem_operations hs) (isOperation_of_mem_operations ht)]

/-! ## §2 What the engine compares -/

/-- What stands on the operator stack while a line is read: the sentinel of its beginning, or an
operation or an opening bracket of the line. -/
def Stacked (g : Grammar) (line : String) (p : Token) : Prop :=
  p = .start ∨ (p.OccursIn line ∧ g.Registers p ∧
    (p.kind.isOperation = true ∨ p.kind = .opening))

/-- An operation or a bracket comes before the sentinels in rank. -/
theorem Registers.exists_rank?_le (few : g.classes.length < bracketRank) {p : Lexeme}
    (h : g.Registers p) (hk : p.kind.isOperation = true ∨ p.kind = .opening) :
    ∃ i, g.rank? p = some i ∧ i ≤ bracketRank := by
  rcases hk with hk | hk
  · have hsupports : g.Supports p := Knows.supports few (.inr h)
    obtain ⟨i, hi, hlt⟩ := hsupports.2 hk
    exact ⟨i, hi, Nat.le_of_lt hlt⟩
  · exact ⟨bracketRank, h.rank?_opening hk, Nat.le_refl _⟩

/-- **The engine compares tokens of the line with the same outcome** under both grammars. -/
theorem AgreeOn.yields (h : AgreeOn line g g') (few : g.classes.length < bracketRank)
    (few' : g'.classes.length < bracketRank) {p t : Token} (hp : g.Stacked line p)
    (ht : (t.OccursIn line ∧ g.Registers t ∧ t.kind.isOperation = true) ∨
      t.toLexeme = Token.finish.toLexeme) : g.yields p t = g'.yields p t := by
  rcases ht with ⟨hoccurs, hreg, hk⟩ | hfinish
  · have hreg' := (h.registers hoccurs).mp hreg
    have hsupports : g.Supports t := Knows.supports few (.inr hreg)
    have hsupports' : g'.Supports t := Knows.supports few' (.inr hreg')
    rcases hp with rfl | ⟨hpoccurs, hpreg, hpk | hpk⟩
    · rw [yields_start hsupports hk, yields_start hsupports' hk]
    · rw [yields_operation hk, yields_operation hk,
        h.bindsTighter hpoccurs hoccurs hpreg hreg hpk hk]
    · have hpreg' := (h.registers hpoccurs).mp hpreg
      rw [yields_opening hpreg hpk hsupports hk, yields_opening hpreg' hpk hsupports' hk]
  · rcases hp with rfl | ⟨hpoccurs, hpreg, hpk⟩
    · have hk : t.kind = .finish := congrArg Lexeme.kind hfinish
      rw [yields_start_finish hk, yields_start_finish hk]
    · have hstart : p.kind ≠ .start := by
        intro hk
        rcases hpk with hpk | hpk <;> simp [hk, Kind.isOperation] at hpk
      obtain ⟨i, hi, hle⟩ := hpreg.exists_rank?_le few hpk
      obtain ⟨j, hj, hle'⟩ := ((h.registers hpoccurs).mp hpreg).exists_rank?_le few' hpk
      rw [yields_finish hi hle hstart hfinish, yields_finish hj hle' hstart hfinish]

end Grammar

end Fixity
