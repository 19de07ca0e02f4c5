import Fixity.Grammar.Declaration
import Fixity.Grammar.Precedence

/-!
# The text of a grammar

How a grammar is written to a grammar file: one line for each precedence class, the tightest
first, then one line for each bracket pair.
-/

namespace Fixity

/-- The line of a precedence class. -/
def PrecedenceClass.line (c : PrecedenceClass) : String :=
  " ".intercalate (c.associativity.name :: c.operations.map fun t => t.encoding)

/-- The line of a bracket pair. -/
def BracketPair.line (b : BracketPair) : String :=
  s!"group {b.opening.symbol} {b.closing.symbol}"

namespace Grammar

/-- The text of a grammar file that declares this grammar. -/
def fileText (g : Grammar) : String :=
  "\n".intercalate (g.classes.map (·.line) ++ g.brackets.map (·.line)) ++ "\n"

/-- A grammar under a heading. -/
def listing (g : Grammar) : String :=
  "Grammar:\n" ++ g.fileText

/-- A grammar in short. -/
def summary (g : Grammar) : String :=
  s!"GrammarSpec(classes={g.classes.length}, groupers={g.brackets.length}, symbols=" ++
    Text.quoteList g.symbols ++ ")"

end Grammar

end Fixity
