import Fixity.Grammar.Precedence
import Mathlib.Data.List.Nodup
import Mathlib.Data.List.Pairwise

/-!
# Registered tokens

A grammar registers a lexeme if one of its tokens has it. Well-formedness makes the tokens of a
grammar unique by their symbols, so looking a symbol up finds the one token that has it.

## Main statements

- `symbol_eq_of_part`: no symbol of a grammar is a part of another one
- `lookup?_eq_some_iff`: a symbol stands for exactly the token that has it
- `Closes.openingFor?`: the two bracket tables are inverse to each other
-/

namespace Fixity

namespace Grammar

variable {g : Grammar}

/-! ## §1 The tokens of a grammar -/

/-- Some token of the grammar has this lexeme. -/
def Registers (g : Grammar) (x : Lexeme) : Prop :=
  ∃ t ∈ g.tokens, t.toLexeme = x

instance (g : Grammar) (x : Lexeme) : Decidable (g.Registers x) :=
  inferInstanceAs (Decidable (∃ t ∈ g.tokens, t.toLexeme = x))

theorem mem_tokens {t : Token} :
    t ∈ g.tokens ↔ t ∈ g.operations ∨ ∃ b ∈ g.brackets, t = b.opening ∨ t = b.closing := by
  simp [tokens, operations, enrolled]

theorem mem_operations {t : Token} :
    t ∈ g.operations ↔ ∃ c ∈ g.classes, t ∈ c.operations := by
  simp [operations]

theorem isOperation_of_mem_operations {t : Token} (h : t ∈ g.operations) :
    t.kind.isOperation = true := by
  obtain ⟨c, hc, ht⟩ := mem_operations.mp h
  exact g.wellFormed.operations c hc t ht

theorem kind_opening {b : BracketPair} (h : b ∈ g.brackets) : b.opening.kind = .opening :=
  (g.wellFormed.pairs b h).1

theorem kind_closing {b : BracketPair} (h : b ∈ g.brackets) : b.closing.kind = .closing :=
  (g.wellFormed.pairs b h).2

/-- A registered lexeme of the kind of an operation is that of an operation. -/
theorem Registers.exists_operation {x : Lexeme} (h : g.Registers x)
    (hk : x.kind.isOperation = true) : ∃ t ∈ g.operations, t.toLexeme = x := by
  obtain ⟨t, ht, rfl⟩ := h
  -- the other tokens are brackets
  rcases mem_tokens.mp ht with ht | ⟨b, hb, rfl | rfl⟩
  · exact ⟨t, ht, rfl⟩
  · simp [kind_opening hb, Kind.isOperation] at hk
  · simp [kind_closing hb, Kind.isOperation] at hk

theorem Registers.kind {x : Lexeme} (h : g.Registers x) :
    x.kind.isOperation = true ∨ x.kind = .opening ∨ x.kind = .closing := by
  obtain ⟨t, ht, rfl⟩ := h
  rcases mem_tokens.mp ht with ht | ⟨b, hb, rfl | rfl⟩
  · exact .inl (isOperation_of_mem_operations ht)
  · exact .inr (.inl (kind_opening hb))
  · exact .inr (.inr (kind_closing hb))

theorem Registers.exists_opening {x : Lexeme} (h : g.Registers x) (hk : x.kind = .opening) :
    ∃ b ∈ g.brackets, b.opening.toLexeme = x := by
  obtain ⟨t, ht, rfl⟩ := h
  rcases mem_tokens.mp ht with ht | ⟨b, hb, rfl | rfl⟩
  · have := isOperation_of_mem_operations ht
    simp [hk, Kind.isOperation] at this
  · exact ⟨b, hb, rfl⟩
  · simp [kind_closing hb] at hk

/-- An identifier, or a lexeme of the grammar. -/
def Knows (g : Grammar) (x : Lexeme) : Prop :=
  x.kind = .identifier ∨ g.Registers x

theorem Knows.registers {x : Lexeme} (h : g.Knows x) (hk : x.kind.isOperation = true) :
    g.Registers x := by
  apply h.resolve_left
  intro hid
  simp [hid, Kind.isOperation] at hk

theorem Knows.isSentinel_eq_false {x : Lexeme} (h : g.Knows x) : x.kind.isSentinel = false := by
  rcases h with hid | hreg
  · rw [hid]
    rfl
  · rcases hreg.kind with hk | hk | hk
    · cases hkind : x.kind <;> simp [hkind, Kind.isOperation, Kind.isSentinel] at hk ⊢
    · rw [hk]
      rfl
    · rw [hk]
      rfl

/-! ## §2 Unique keys -/

/-- Where no two entries share a key, the entry that is found by a key is the one that has it. -/
theorem find?_key_eq_some_iff {α κ : Type} [DecidableEq κ] {key : α → κ} {l : List α}
    (hl : (l.map key).Nodup) {k : κ} {a : α} :
    l.find? (fun x => key x = k) = some a ↔ a ∈ l ∧ key a = k := by
  have hfound : ∀ b, l.find? (fun x => key x = k) = some b → b ∈ l ∧ key b = k := by
    intro b hb
    exact ⟨List.mem_of_find?_eq_some hb, by simpa using List.find?_some hb⟩
  constructor
  · exact hfound a
  · intro ⟨ha, hk⟩
    cases hb : l.find? (fun x => key x = k) with
    | none => exact absurd hk (by simpa using List.find?_eq_none.mp hb a ha)
    | some b =>
      -- the entry that is found has the same key, so it is the same entry
      obtain ⟨hbl, hbk⟩ := hfound b hb
      rw [List.inj_on_of_nodup_map hl ha hbl (hk.trans hbk.symm)]

theorem overlap_self (s : String) : Overlap s s :=
  .inl (List.infix_refl _)

theorem nodup_symbols (g : Grammar) : (g.tokens.map (·.symbol)).Nodup := by
  rw [List.Nodup, List.pairwise_map]
  apply g.wellFormed.distinct.apart.imp
  intro s t hno heq
  -- equal symbols overlap
  exact hno (heq ▸ overlap_self s.symbol)

/-- No symbol of a grammar is a part of another one. -/
theorem symbol_eq_of_part {s t : Token} (hs : s ∈ g.tokens) (ht : t ∈ g.tokens)
    (h : s.symbol.toList <:+: t.symbol.toList) : s.symbol = t.symbol := by
  by_contra hne
  -- overlapping does not depend on which of the two was registered first
  have hsymm : Std.Symm fun a b : Token => ¬ Overlap a.symbol b.symbol :=
    ⟨fun a b hab hba => hab (Or.symm hba)⟩
  have hapart := g.wellFormed.distinct.apart.forall hs ht
  exact hapart (fun heq => hne (congrArg (·.symbol) heq)) (.inl h)

theorem isSymbol_of_mem {t : Token} (h : t ∈ g.tokens) : IsSymbol t.symbol :=
  g.wellFormed.distinct.symbols t h

theorem lookup?_eq_some_iff {symbol : String} {t : Token} :
    g.lookup? symbol = some t ↔ t ∈ g.tokens ∧ t.symbol = symbol :=
  find?_key_eq_some_iff g.nodup_symbols

/-! ## §3 Bracket partners -/

/-- Brackets in different pairs have different symbols. -/
theorem pairwise_brackets (g : Grammar) :
    g.brackets.Pairwise fun a b =>
      a.opening.toLexeme ≠ b.opening.toLexeme ∧ a.closing.toLexeme ≠ b.closing.toLexeme := by
  -- the brackets are registered behind the operations, pair by pair
  have hapart := (List.pairwise_append.mp g.wellFormed.distinct.apart).2.1
  apply (List.pairwise_flatMap.mp hapart).2.imp
  intro a b hab
  constructor
  · intro heq
    apply hab a.opening (by simp) b.opening (by simp)
    rw [congrArg Lexeme.symbol heq]
    exact overlap_self _
  · intro heq
    apply hab a.closing (by simp) b.closing (by simp)
    rw [congrArg Lexeme.symbol heq]
    exact overlap_self _

theorem nodup_openings (g : Grammar) : (g.brackets.map (·.opening.toLexeme)).Nodup := by
  rw [List.Nodup, List.pairwise_map]
  exact g.pairwise_brackets.imp And.left

theorem nodup_closings (g : Grammar) : (g.brackets.map (·.closing.toLexeme)).Nodup := by
  rw [List.Nodup, List.pairwise_map]
  exact g.pairwise_brackets.imp And.right

/-- The second lexeme is that of the closing bracket that belongs to the first one. -/
def Closes (g : Grammar) (opening closing : Lexeme) : Prop :=
  (g.closingFor? opening).map (·.toLexeme) = some closing

instance (g : Grammar) (o c : Lexeme) : Decidable (g.Closes o c) :=
  inferInstanceAs (Decidable (_ = _))

theorem closingFor?_eq {b : BracketPair} (h : b ∈ g.brackets) :
    g.closingFor? b.opening = some b.closing := by
  have hfind := (find?_key_eq_some_iff g.nodup_openings).mpr ⟨h, rfl⟩
  rw [closingFor?, hfind, Option.map_some]

theorem openingFor?_eq {b : BracketPair} (h : b ∈ g.brackets) :
    g.openingFor? b.closing = some b.opening := by
  have hfind := (find?_key_eq_some_iff g.nodup_closings).mpr ⟨h, rfl⟩
  rw [openingFor?, hfind, Option.map_some]

theorem closes_iff {o c : Lexeme} :
    g.Closes o c ↔ ∃ b ∈ g.brackets, b.opening.toLexeme = o ∧ b.closing.toLexeme = c := by
  constructor
  · intro h
    obtain ⟨t, ht, rfl⟩ := Option.map_eq_some_iff.mp h
    obtain ⟨b, hb, rfl⟩ := Option.map_eq_some_iff.mp ht
    exact ⟨b, List.mem_of_find?_eq_some hb, by simpa using List.find?_some hb, rfl⟩
  · rintro ⟨b, hb, rfl, rfl⟩
    rw [Closes, closingFor?_eq hb, Option.map_some]

/-- The table from closing to opening brackets agrees with the one from opening to closing. -/
theorem Closes.openingFor? {o c : Lexeme} (h : g.Closes o c) :
    (g.openingFor? c).map (·.toLexeme) = some o := by
  obtain ⟨b, hb, rfl, rfl⟩ := closes_iff.mp h
  rw [openingFor?_eq hb, Option.map_some]

theorem Closes.registers_closing {o c : Lexeme} (h : g.Closes o c) : g.Registers c := by
  obtain ⟨b, hb, -, rfl⟩ := closes_iff.mp h
  exact ⟨b.closing, mem_tokens.mpr (.inr ⟨b, hb, .inr rfl⟩), rfl⟩

theorem Closes.registers_opening {o c : Lexeme} (h : g.Closes o c) : g.Registers o := by
  obtain ⟨b, hb, rfl, -⟩ := closes_iff.mp h
  exact ⟨b.opening, mem_tokens.mpr (.inr ⟨b, hb, .inl rfl⟩), rfl⟩

theorem Closes.kind_closing {o c : Lexeme} (h : g.Closes o c) : c.kind = .closing := by
  obtain ⟨b, hb, -, rfl⟩ := closes_iff.mp h
  exact Grammar.kind_closing hb

theorem Closes.kind_opening {o c : Lexeme} (h : g.Closes o c) : o.kind = .opening := by
  obtain ⟨b, hb, rfl, -⟩ := closes_iff.mp h
  exact Grammar.kind_opening hb

end Grammar

end Fixity
