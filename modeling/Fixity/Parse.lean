import Fixity.ParseError
import Fixity.Tree.Print

/-!
# Parsing a line

A line is cut into tokens, the engine puts them in postfix order, and the tree is built from
that. Every line is read by a fresh engine, so that no line matters to another. What happens
on the way can be logged.
-/

namespace Fixity

/-! ## §1 Parsing -/

/-- Why a line has no tree. -/
inductive Failure where
  /-- A piece of the line is not found in the line. -/
  | lostPiece (line : String) (piece : LostPiece)
  /-- The tokens cannot be put in postfix order. -/
  | engine (fault : EngineFault)
  /-- The postfix order is not that of a tree. -/
  | build (fault : Tree.BuildFault)
deriving DecidableEq, Repr

/-- The report of a failed parse. -/
def Failure.report : Failure → Report
  | lostPiece line piece => .internalError (piece.error line)
  | engine fault => fault.report
  | build fault => fault.report

namespace Grammar

/-- The run of a fresh engine over the tokens of a line. -/
def runFresh (g : Grammar) (tokens : List Token) : Run :=
  Engine.run g {} tokens

/-- The tree of a list of tokens in the order of the line. -/
def parseTokens (g : Grammar) (tokens : List Token) : Except Failure Tree :=
  match (g.runFresh tokens).result with
  | .error f => .error (.engine f)
  | .ok postfixed => (Tree.ofPostfix? postfixed).mapError .build

/-- The tree of a line. -/
def parse (g : Grammar) (line : String) : Except Failure Tree :=
  match g.tokenize line with
  | .error piece => .error (.lostPiece line piece)
  | .ok tokens => g.parseTokens tokens

end Grammar

/-! ## §2 The log -/

/-- Something worth a line in the log. -/
inductive Event where
  | grammarBuilt (grammar : Grammar)
  | grammarLoaded (source : String)
  | tokenized (line : String) (tokens : List Token)
  | reached (state : Engine)
  | parsed (line : String) (tree : Tree)

namespace Event

/-- Which part of the program speaks. -/
def speaker : Event → String
  | grammarBuilt _ => "opparse.grammar.spec"
  | grammarLoaded _ => "opparse.grammar.loader"
  | tokenized _ _ => "opparse.frontend.tokenizer"
  | reached _ | parsed _ _ => "opparse.frontend.parser"

/-- What it says. -/
def message : Event → String
  | grammarBuilt g =>
    s!"Grammar built: {g.classes.length} precedence class(es), " ++
      s!"{g.brackets.length} grouping pair(s), symbols {Text.quoteList g.symbols}"
  | grammarLoaded source => s!"Loaded grammar from {source}"
  | tokenized line tokens =>
    s!"Tokenized {Text.quote line} -> {Text.quoteList (tokens.map (·.symbol))}"
  | reached state => state.snapshot
  | parsed line tree => s!"Parsed {Text.quote line} -> {tree.toText}"

/-- The entry in the log. -/
def text (e : Event) : String :=
  e.speaker ++ ": " ++ e.message

end Event

/-- What happens while a line is parsed: its tokens, the states of the engine, its tree. -/
def Grammar.events (g : Grammar) (line : String) : List Event :=
  match g.tokenize line with
  | .error _ => []
  | .ok tokens =>
    let parsed :=
      match g.parse line with
      | .error _ => []
      | .ok tree => [Event.parsed line tree]
    .tokenized line tokens :: (g.runFresh tokens).visited.map .reached ++ parsed

end Fixity
