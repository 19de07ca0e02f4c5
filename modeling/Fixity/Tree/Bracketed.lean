import Fixity.Tree.Traversal
import Fixity.Grammar.Precedence

/-!
# Bracketed text of a tree

A tree is written as text that reads back as the same tree up to brackets: every operation
stands between the first brackets of the grammar, so that precedence decides nothing.
-/

namespace Fixity

/-! ## §1 Printers -/

/-- A grammar with the brackets that operations are printed in. -/
structure Printer where
  grammar : Grammar
  brackets : BracketPair

/-- The printer of a grammar, which takes the first bracket pair. -/
def Grammar.printer? (g : Grammar) : Except GrammarFault Printer :=
  match g.brackets with
  | [] => .error .noBrackets
  | b :: _ => .ok ⟨g, b⟩

namespace Printer

/-- A token that cannot be printed above the operands that it has. -/
structure Fault where
  token : Token
deriving DecidableEq, Repr

/-- What is wrong, in words. -/
def Fault.message (f : Fault) : String :=
  s!"token <{f.token.symbol}> of kind {f.token.kind.title} cannot be rendered"

/-! ## §2 Printing -/

/-- The text of a node around the texts of its subtrees. A bracket is closed by its own
    partner, an operation is put between the brackets of the printer. -/
def node (p : Printer) (t : Tree) (operands : List String) : Except Fault String :=
  let o := p.brackets.opening.symbol
  let c := p.brackets.closing.symbol
  match t.token.kind, operands with
  | .identifier, _ => .ok t.token.symbol
  | .opening, x :: _ =>
    let partner := (p.grammar.closingFor? t.token).map (·.symbol)
    .ok (" ".intercalate [t.token.symbol, x, partner.getD "None"])
  | .unary, x :: _ => .ok (" ".intercalate [o, t.token.symbol, x, c])
  | .binary, x :: y :: _ => .ok (" ".intercalate [o, x, t.token.symbol, y, c])
  | _, _ => .error ⟨t.token⟩

/-- The bracketed text of a tree. -/
def print (p : Printer) (t : Tree) : Except Fault String :=
  t.fold? p.node

end Printer

end Fixity
