import Fixity.Grammar.FileText
import Fixity.Proofs.Grammar.Registered

/-!
# Grammars up to places

The tokens of a table may carry places, but no question to a grammar is about these. So grammars
whose tables agree in kinds and symbols know the same: the symbols and what they stand for, the
ranks, the associativities and the partners of brackets. And every grammar has one like it over
tokens without a place.

## Main statements

- `Alike.symbols`, `Alike.lookup?`, `Alike.rank?`, `Alike.associativity?`, `Alike.openingFor?`,
  `Alike.closingFor?`, `Alike.fileText`: what is known of alike grammars is the same
- `alike_unplaced`: a grammar and the one without places are alike
-/

namespace Fixity

/-! ## §1 Alike grammars -/

/-- The associativity of a class and the lexemes of its members. -/
def PrecedenceClass.lexemes (c : PrecedenceClass) : Associativity × List Lexeme :=
  (c.associativity, c.operations.map (·.toLexeme))

/-- The lexemes of a pair. -/
def BracketPair.lexemes (b : BracketPair) : Lexeme × Lexeme :=
  (b.opening.toLexeme, b.closing.toLexeme)

namespace Grammar

/-- Two grammars have the same classes and the same bracket pairs, each in the same order. Their
tokens are compared by kind and symbol. -/
structure Alike (g g' : Grammar) : Prop where
  classes : g.classes.map (·.lexemes) = g'.classes.map (·.lexemes)
  brackets : g.brackets.map (·.lexemes) = g'.brackets.map (·.lexemes)

variable {g g' : Grammar}

/-! ## §2 What the lexemes decide -/

theorem lexemes_tokens (g : Grammar) : g.tokens.map (·.toLexeme) =
    (g.classes.map (·.lexemes)).flatMap (·.2) ++
      (g.brackets.map (·.lexemes)).flatMap fun b => [b.1, b.2] := by
  simp [tokens, enrolled, List.map_flatMap, List.flatMap_map, PrecedenceClass.lexemes,
    BracketPair.lexemes]

theorem has_eq (c : PrecedenceClass) (x : Lexeme) : c.has x = c.lexemes.2.any (· = x) := by
  simp [PrecedenceClass.has, PrecedenceClass.lexemes, List.any_map, Function.comp_def]

theorem Alike.tokens (h : Alike g g') :
    g.tokens.map (·.toLexeme) = g'.tokens.map (·.toLexeme) := by
  rw [lexemes_tokens, lexemes_tokens, h.classes, h.brackets]

theorem Alike.symbols (h : Alike g g') : g.symbols = g'.symbols := by
  have hsymbols := congrArg (List.map Lexeme.symbol) h.tokens
  rw [List.map_map, List.map_map] at hsymbols
  exact congrArg (List.mergeSort · (· ≤ ·)) hsymbols

theorem lookup?_map (g : Grammar) (symbol : String) : (g.lookup? symbol).map (·.toLexeme) =
    (g.tokens.map (·.toLexeme)).find? (·.symbol = symbol) := by
  rw [lookup?, List.find?_map]
  rfl

theorem Alike.lookup? (h : Alike g g') (symbol : String) :
    (g.lookup? symbol).map (·.toLexeme) = (g'.lookup? symbol).map (·.toLexeme) := by
  rw [lookup?_map, lookup?_map, h.tokens]

theorem rank?_eq (g : Grammar) (x : Lexeme) : g.rank? x =
    if x = Token.start.toLexeme ∨ x = Token.finish.toLexeme then some sentinelRank
    else if (g.brackets.map (·.lexemes)).any fun b => b.1 = x ∨ b.2 = x then some bracketRank
    else (g.classes.map (·.lexemes)).findIdx? fun c => c.2.any (· = x) := by
  simp only [rank?, List.any_map, List.findIdx?_map, Function.comp_def, has_eq,
    BracketPair.lexemes]

theorem Alike.rank? (h : Alike g g') (x : Lexeme) : g.rank? x = g'.rank? x := by
  rw [rank?_eq, rank?_eq, h.classes, h.brackets]

theorem associativity?_eq (g : Grammar) (x : Lexeme) : g.associativity? x =
    ((g.classes.map (·.lexemes)).find? fun c => c.2.any (· = x)).map (·.1) := by
  simp [associativity?, List.find?_map, Function.comp_def, has_eq, PrecedenceClass.lexemes]

theorem Alike.associativity? (h : Alike g g') (x : Lexeme) :
    g.associativity? x = g'.associativity? x := by
  rw [associativity?_eq, associativity?_eq, h.classes]

theorem closingFor?_map (g : Grammar) (x : Lexeme) : (g.closingFor? x).map (·.toLexeme) =
    ((g.brackets.map (·.lexemes)).find? (·.1 = x)).map (·.2) := by
  simp [closingFor?, List.find?_map, Function.comp_def, BracketPair.lexemes]

theorem Alike.closingFor? (h : Alike g g') (x : Lexeme) :
    (g.closingFor? x).map (·.toLexeme) = (g'.closingFor? x).map (·.toLexeme) := by
  rw [closingFor?_map, closingFor?_map, h.brackets]

theorem openingFor?_map (g : Grammar) (x : Lexeme) : (g.openingFor? x).map (·.toLexeme) =
    ((g.brackets.map (·.lexemes)).find? (·.2 = x)).map (·.1) := by
  simp [openingFor?, List.find?_map, Function.comp_def, BracketPair.lexemes]

theorem Alike.openingFor? (h : Alike g g') (x : Lexeme) :
    (g.openingFor? x).map (·.toLexeme) = (g'.openingFor? x).map (·.toLexeme) := by
  rw [openingFor?_map, openingFor?_map, h.brackets]

theorem fileText_eq (g : Grammar) : g.fileText = "\n".intercalate
    ((g.classes.map (·.lexemes)).map
        (fun c => " ".intercalate (c.1.name :: c.2.map Lexeme.encoding)) ++
      (g.brackets.map (·.lexemes)).map fun b => s!"group {b.1.symbol} {b.2.symbol}") ++ "\n" := by
  simp only [fileText, List.map_map, Function.comp_def, PrecedenceClass.lexemes,
    BracketPair.lexemes]
  rfl

theorem Alike.fileText (h : Alike g g') : g.fileText = g'.fileText := by
  rw [fileText_eq, fileText_eq, h.classes, h.brackets]

end Grammar

/-! ## §3 Grammars without places -/

/-- The class over tokens without a place. -/
def PrecedenceClass.unplaced (c : PrecedenceClass) : PrecedenceClass :=
  { c with operations := c.operations.map (·.placed (-1) none) }

/-- The pair over tokens without a place. -/
def BracketPair.unplaced (b : BracketPair) : BracketPair :=
  ⟨b.opening.placed (-1) none, b.closing.placed (-1) none⟩

theorem enrolled_unplaced (classes : List PrecedenceClass) (brackets : List BracketPair) :
    enrolled (classes.map (·.unplaced)) (brackets.map (·.unplaced)) =
      (enrolled classes brackets).map (·.placed (-1) none) := by
  simp [enrolled, List.map_flatMap, List.flatMap_map, PrecedenceClass.unplaced,
    BracketPair.unplaced]

theorem Distinct.unplaced {tokens : List Token} (h : Distinct tokens) :
    Distinct (tokens.map (·.placed (-1) none)) where
  symbols := by simpa using h.symbols
  apart := List.pairwise_map.mpr (by simpa using h.apart)

/-- A table stays well formed without the places. -/
theorem WellFormed.unplaced {classes : List PrecedenceClass} {brackets : List BracketPair}
    (h : WellFormed classes brackets) :
    WellFormed (classes.map (·.unplaced)) (brackets.map (·.unplaced)) where
  inhabited := by simpa [PrecedenceClass.unplaced] using h.inhabited
  operations := by simpa [PrecedenceClass.unplaced] using h.operations
  pairs := by simpa [BracketPair.unplaced] using h.pairs
  distinct := enrolled_unplaced classes brackets ▸ h.distinct.unplaced

namespace Grammar

/-- The grammar over tokens without a place. -/
def unplaced (g : Grammar) : Grammar where
  classes := g.classes.map (·.unplaced)
  brackets := g.brackets.map (·.unplaced)
  wellFormed := g.wellFormed.unplaced

/-- **A grammar and the one without places are alike.** -/
theorem alike_unplaced (g : Grammar) : Alike g.unplaced g where
  classes := by
    simp [unplaced, PrecedenceClass.unplaced, PrecedenceClass.lexemes, Function.comp_def]
  brackets := by
    simp [unplaced, BracketPair.unplaced, BracketPair.lexemes, Function.comp_def]

end Grammar

end Fixity
