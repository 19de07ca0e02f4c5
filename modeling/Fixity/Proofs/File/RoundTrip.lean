import Fixity.Proofs.File.Reading
import Fixity.Proofs.Grammar.Unplaced

/-!
# Grammar files round trip

The text of a grammar is read back as the declarations that it was written from, and these declare
the grammar again. Only the places that its tokens may carry are not written, so what comes back is
the same grammar over tokens without a place.

## Main statements

- `declarations?_fileText`: the text of a grammar is read as its declarations
- `table?_declarations`: the declarations of a grammar declare its table
- `ofFileText?_fileText`: the text of a grammar declares a grammar that is like it
-/

namespace Fixity

/-! ## §1 The text declares what it was written from -/

namespace Grammar

variable {g : Grammar}

/-- What the file of a grammar declares: its classes, then its brackets. -/
def declarations (g : Grammar) : List Declaration :=
  g.classes.map (·.declaration) ++ g.brackets.map (·.declaration)

/-- The lines of the file of a grammar. -/
def lines (g : Grammar) : List (List Char) :=
  (g.classes.map (·.line) ++ g.brackets.map (·.line)).map String.toList

theorem writable_of_mem {c : PrecedenceClass} {t : Token} (hc : c ∈ g.classes)
    (ht : t ∈ c.operations) : File.Writable t := by
  have hmem : t ∈ g.tokens := mem_tokens.mpr (.inl (mem_operations.mpr ⟨c, hc, ht⟩))
  exact ⟨g.wellFormed.operations c hc t ht, isSymbol_of_mem hmem⟩

/-- Each line declares what it was written from. -/
theorem declares_lines (g : Grammar) : List.Forall₂ File.Declares g.lines g.declarations := by
  have hclasses : List.Forall₂ File.Declares (g.classes.map (·.line.toList))
      (g.classes.map (·.declaration)) := by
    rw [List.forall₂_map_left_iff, List.forall₂_map_right_iff, List.forall₂_same]
    intro c hc
    exact File.declares_class (g.wellFormed.inhabited c hc) fun t ht => writable_of_mem hc ht
  have hbrackets : List.Forall₂ File.Declares (g.brackets.map (·.line.toList))
      (g.brackets.map (·.declaration)) := by
    rw [List.forall₂_map_left_iff, List.forall₂_map_right_iff, List.forall₂_same]
    intro b hb
    have hopening : b.opening ∈ g.tokens := mem_tokens.mpr (.inr ⟨b, hb, .inl rfl⟩)
    have hclosing : b.closing ∈ g.tokens := mem_tokens.mpr (.inr ⟨b, hb, .inr rfl⟩)
    exact File.declares_brackets (isSymbol_of_mem hopening) (isSymbol_of_mem hclosing)
  rw [lines, List.map_append, List.map_map, List.map_map]
  exact List.rel_append hclasses hbrackets

/-- Lines between which there is a separator, with one more behind the last. -/
theorem intercalate_append {sep : List Char} {xs : List (List Char)} (h : xs ≠ []) :
    sep.intercalate xs ++ sep = xs.flatMap (· ++ sep) := by
  induction xs with
  | nil => contradiction
  | cons x xs ih =>
    cases xs with
    | nil => simp
    | cons y ys =>
      rw [List.intercalate_cons_cons, List.append_assoc, ih (by simp)]
      simp

theorem toList_fileText (g : Grammar) :
    g.fileText.toList = ['\n'].intercalate g.lines ++ ['\n'] := by
  rw [fileText, String.toList_append, String.toList_intercalate]
  rfl

/-- **The text of a grammar is read as its declarations.** -/
theorem declarations?_fileText (g : Grammar) :
    File.declarations? .outset {} {} g.fileText.toList = .ok g.declarations := by
  have hlines := g.declares_lines
  rw [toList_fileText]
  by_cases hnone : g.lines = []
  -- the file of a grammar without a table is an empty line
  · rw [hnone] at hlines
    rw [hnone, List.forall₂_nil_left_iff.mp hlines]
    obtain ⟨here, last, hread⟩ := @File.leads_feed .outset [] rfl (by simp) {} {}
    rw [List.intercalate_nil, List.nil_append, hread, File.declarations?]
    rfl
  · rw [intercalate_append hnone]
    exact File.declarations?_lines hlines (.inl rfl) {} {}

end Grammar

/-! ## §2 The declarations declare the table -/

namespace Declaration

theorem ofName?_name (a : Associativity) : Associativity.ofName? a.name = .ok a := by
  cases a <;> decide

/-- Without its place a token is what its kind and its symbol make. -/
theorem ofKind_symbol {t : Token} {k : Kind} (h : t.kind = k) :
    Token.ofKind k t.symbol = t.placed (-1) none := by
  subst h
  rfl

theorem operation?_arity {t : Token} (h : t.kind.isOperation = true) (encoding : String) :
    Token.operation? t.arity t.symbol encoding = .ok (t.placed (-1) none) := by
  cases hk : t.kind with
  | unary | binary =>
    rw [← ofKind_symbol hk]
    simp [Token.operation?, Lexeme.arity, hk, Kind.arity]
  | identifier | opening | closing | start | finish => simp [hk, Kind.isOperation] at h

theorem operations?_members {ts : List Token} (h : ∀ t ∈ ts, t.kind.isOperation = true) :
    operations? (ts.map (·.member)) = .ok (ts.map (·.placed (-1) none)) := by
  induction ts with
  | nil => rfl
  | cons t ts ih =>
    obtain ⟨ht, hts⟩ := List.forall_mem_cons.mp h
    rw [List.map_cons, Token.member, operations?, operation?_arity ht, ih hts]
    rfl

theorem ofSymbols_eq_unplaced {b : BracketPair}
    (h : b.opening.kind = .opening ∧ b.closing.kind = .closing) :
    BracketPair.ofSymbols b.opening.symbol b.closing.symbol = b.unplaced := by
  rw [BracketPair.ofSymbols, BracketPair.unplaced, ofKind_symbol h.1, ofKind_symbol h.2]

theorem table?_brackets {bs : List BracketPair}
    (h : ∀ b ∈ bs, b.opening.kind = .opening ∧ b.closing.kind = .closing) :
    table? (bs.map (·.declaration)) = .ok ([], bs.map (·.unplaced)) := by
  induction bs with
  | nil => rfl
  | cons b bs ih =>
    obtain ⟨hb, hbs⟩ := List.forall_mem_cons.mp h
    rw [List.map_cons, BracketPair.declaration, table?, ih hbs, ofSymbols_eq_unplaced hb]
    rfl

/-- Classes in front are declared before what follows. -/
theorem table?_classes {cs cs' : List PrecedenceClass} {ds : List Declaration}
    {bs : List BracketPair} (h : ∀ c ∈ cs, ∀ t ∈ c.operations, t.kind.isOperation = true)
    (hds : table? ds = .ok (cs', bs)) :
    table? (cs.map (·.declaration) ++ ds) = .ok (cs.map (·.unplaced) ++ cs', bs) := by
  induction cs with
  | nil => exact hds
  | cons c cs ih =>
    obtain ⟨hc, hcs⟩ := List.forall_mem_cons.mp h
    rw [List.map_cons, List.cons_append, PrecedenceClass.declaration, table?, ofName?_name,
      operations?_members hc, ih hcs]
    rfl

/-- **The declarations of a grammar declare its table**, with tokens that have no place. -/
theorem table?_declarations (g : Grammar) :
    table? g.declarations = .ok (g.unplaced.classes, g.unplaced.brackets) := by
  have hbrackets := table?_brackets g.wellFormed.pairs
  have htable := table?_classes g.wellFormed.operations hbrackets
  rwa [List.append_nil] at htable

end Declaration

/-! ## §3 Round trip -/

namespace Grammar

theorem ofFileText?_eq_unplaced (g : Grammar) (source : String) :
    ofFileText? g.fileText source = .ok g.unplaced := by
  have hbuild : build? g.unplaced.classes g.unplaced.brackets = .ok g.unplaced :=
    build?_eq_ok_iff.mpr ⟨rfl, rfl⟩
  rw [ofFileText?, declarations?_fileText]
  simp only [ofDeclarations?, Declaration.table?_declarations]
  exact hbuild

/-- **The text of a grammar declares a grammar that is like it**: with the same precedence classes
and bracket pairs in the same order, so with the same symbols, ranks, associativities and partners
of brackets. And its text is the same again. -/
theorem ofFileText?_fileText (g : Grammar) (source : String) :
    ∃ g', ofFileText? g.fileText source = .ok g' ∧ Alike g' g ∧
      g'.symbols = g.symbols ∧
      (∀ s, (g'.lookup? s).map (·.toLexeme) = (g.lookup? s).map (·.toLexeme)) ∧
      (∀ x, g'.rank? x = g.rank? x) ∧
      (∀ x, g'.associativity? x = g.associativity? x) ∧
      (∀ x, (g'.openingFor? x).map (·.toLexeme) = (g.openingFor? x).map (·.toLexeme)) ∧
      (∀ x, (g'.closingFor? x).map (·.toLexeme) = (g.closingFor? x).map (·.toLexeme)) ∧
      g'.fileText = g.fileText := by
  have halike := alike_unplaced g
  exact ⟨g.unplaced, ofFileText?_eq_unplaced g source, halike, halike.symbols, halike.lookup?,
    halike.rank?, halike.associativity?, halike.openingFor?, halike.closingFor?, halike.fileText⟩

end Grammar

end Fixity
