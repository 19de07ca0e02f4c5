import Fixity.Diagnostic.Basic
import Fixity.Engine
import Fixity.Pieces
import Fixity.Tree.Postfix

/-!
# Parse errors

How the failures of the stages are reported. Most are parse errors: a category, a message, the
offending tokens and sometimes a hint. The others have reports of their own.
-/

namespace Fixity

/-! ## §1 Parse errors -/

/-- The sort of a parse error. -/
inductive ErrorCategory where
  /-- Any failed parse. -/
  | general
  /-- Two neighbours that may not follow each other. -/
  | misplaced
  /-- An opening bracket that is still open at the end. -/
  | unclosed
  /-- A closing bracket while none is open. -/
  | unopened
  /-- A closing bracket that does not belong to the innermost open one. -/
  | mismatched
  /-- Operands that are missing or left over. -/
  | structural
deriving DecidableEq, Repr

namespace ErrorCategory

/-- The code of a category. -/
def code : ErrorCategory → String
  | general | misplaced => "E0100"
  | unclosed => "E0101"
  | unopened => "E0102"
  | mismatched => "E0103"
  | structural => "E0104"

/-- What stands behind the carets of a category. -/
def label : ErrorCategory → Option String
  | unclosed => some "unclosed"
  | unopened => some "unexpected"
  | general | misplaced | mismatched | structural => none

end ErrorCategory

/-- A failed parse with the tokens to blame. -/
structure ParseError where
  category : ErrorCategory
  message : String
  tokens : List Token
  help : Option String := none
deriving DecidableEq, Repr

namespace ParseError

/-- The report on one line. -/
def text (e : ParseError) : String :=
  s!"error[{e.category.code}]: {e.message}"

/-- The indices of those tokens that have one. -/
def indices (e : ParseError) : List Int :=
  (e.tokens.map (·.index)).filter (0 ≤ ·)

/-- The spans of those tokens that have one. -/
def spans (e : ParseError) : List Span :=
  e.tokens.filterMap (·.span)

/-- The marked offsets in increasing order, each once. -/
def offsets? (e : ParseError) : Option (List Int) :=
  (Span.allMarks? e.spans).map fun marks => (marks.mergeSort (· ≤ ·)).eraseDups

/-- The diagnostic that shows an error in an input of some name. -/
def diagnostic (e : ParseError) (inputName : String) : Diagnostic where
  message := e.message
  spans := e.spans
  code := some e.category.code
  inputName := inputName
  help := e.help
  label := e.category.label

/-- The text of that diagnostic over the source. -/
def format? (e : ParseError) (source : String) (color : Bool) (inputName : String) :
    Option String :=
  (e.diagnostic inputName).format? (some source) color

end ParseError

/-! ## §2 Refused tokens -/

/-- The symbol of a bracket that may be unknown. -/
def partnerSymbol (t : Option Token) : String :=
  (t.map (·.symbol)).getD "None"

namespace Rejection

/-- What is missing between two neighbours. -/
def hint? (last next : Token) : Option String :=
  if last.kind.endsOperand && next.kind.beginsOperand then
    some "expected an operation between them"
  else if last.kind.awaitsOperand && next.kind.followsOperand then some "expected an operand"
  else none

/-- The parse error of a refused token. The sentinel of the beginning is never to blame. -/
def error : Rejection → ParseError
  | misplaced last next =>
    { category := .misplaced
      message := s!"syntax error: token <{last.symbol}> followed by <{next.symbol}>"
      tokens := [last, next].filter (·.kind ≠ .start)
      help := hint? last next }
  | unclosed o partner =>
    { category := .unclosed
      message := s!"unclosed grouping symbol <{o.symbol}>"
      tokens := [o]
      help := some ("add `" ++ partnerSymbol partner ++ "` to close it") }
  | unopened c =>
    { category := .unopened
      message := s!"unmatched closing grouping symbol <{c.symbol}>"
      tokens := [c] }
  | mismatched o c expected =>
    { category := .mismatched
      message := s!"mismatched grouping symbols: <{o.symbol}> closed by <{c.symbol}>"
      tokens := [o, c]
      help := some ("expected `" ++ partnerSymbol expected ++ "`") }

end Rejection

/-! ## §3 Reports -/

/-- What a failure looks like from outside. -/
inductive Report where
  | parseError (error : ParseError)
  | grammarError (error : GrammarError)
  | internalError (error : InternalError)
  | arity (fault : Tree.ArityFault)
  | noLength (span : Span)
deriving DecidableEq, Repr

namespace Report

/-- The report of a failure of the stacks or of the tree. -/
def structural (message : String) (tokens : List Token) : Report :=
  .parseError { category := .structural, message, tokens }

end Report

/-- The report of a failed run. -/
def EngineFault.report : EngineFault → Report
  | rejected r => .parseError r.error
  | emptyStack t =>
    .structural s!"operator stack empty while handling <{t.symbol}>" [t]
  | noOpening c =>
    .structural s!"no open grouping symbol on the stack for <{c.symbol}>" [c]
  | mismatched o c =>
    .parseError
      { category := .mismatched
        message := s!"mismatched grouping symbols: <{o.symbol}> closed by <{c.symbol}>"
        tokens := [o, c] }
  | unexpected t => .structural s!"unexpected token <{t.symbol}> in input" [t]
  | leftPending ts =>
    .structural
      ("operations left pending at end of input: " ++ " ".intercalate (ts.map (·.symbol))) ts
  | noPrecedence f => .grammarError f.report
  | inverted s => .noLength s

/-- The report of tokens that make no tree. -/
def Tree.BuildFault.report : Tree.BuildFault → Report
  | unbuildable t => .structural s!"token <{t.symbol}> cannot be built into a tree" [t]
  | missingOperands t found =>
    .structural s!"<{t.symbol}> needs {t.arity} operand(s), found {found}" [t]
  | empty => .structural "empty expression" []
  | leftover roots =>
    .structural s!"{roots.length} expression(s) left over after building the tree" roots
  | arity f => .arity f

end Fixity
