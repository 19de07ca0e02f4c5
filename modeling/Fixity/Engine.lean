import Fixity.Checker
import Fixity.Cursor

/-!
# The two-stack engine

Tokens in the order of the line become tokens in postfix order. Operations and open brackets
wait on one stack until their operands are complete, then they go to the other, the output.
An identifier goes straight to the output; a closing bracket sends everything down to its
opening bracket there, and that bracket after it; an operation first sends every waiting
operation that binds tighter.

A failure leaves the stacks as they were when it was found, and nothing is reset between runs.
-/

namespace Fixity

/-! ## §1 Failures -/

/-- Why a run stops. -/
inductive EngineFault where
  /-- The checker refuses the next token. -/
  | rejected (rejection : Rejection)
  /-- The operator stack is used up. -/
  | emptyStack (incoming : Token)
  /-- No bracket is open on the operator stack. -/
  | noOpening (closing : Token)
  /-- The bracket on the operator stack belongs to another closing bracket. -/
  | mismatched (opening closing : Token)
  /-- The sentinel of the beginning comes in the line. -/
  | unexpected (token : Token)
  /-- Operations are left when the line ends, the first of them at the bottom. -/
  | leftPending (operators : List Token)
  /-- The grammar does not know which of two tokens binds tighter. -/
  | noPrecedence (fault : GrammarFault)
  /-- The span of the last token ends before it starts. -/
  | inverted (span : Span)
deriving DecidableEq, Repr

/-! ## §2 Stacks -/

/-- Both stacks, their tops first. -/
structure Stacks where
  operators : List Token := [.start]
  output : List Token := []
deriving DecidableEq, Repr

/-- Whether the left of two tokens binds tighter. The sentinel of the beginning does not bind
    tighter than that of the end. -/
def Grammar.yields (g : Grammar) (left right : Token) : Except GrammarFault Bool :=
  if left.kind = .start ∧ right.kind = .finish then .ok false
  else g.bindsTighter left right

namespace Stacks

/-- Sends operators to the output as long as they bind tighter than an incoming token. -/
def flush (g : Grammar) (incoming : Token) :
    (operators output : List Token) → Stacks × Option EngineFault
  | [], output => (⟨[], output⟩, some (.emptyStack incoming))
  | top :: rest, output =>
    -- an unknown top stays where it is
    match g.yields top incoming with
    | .error f => (⟨top :: rest, output⟩, some (.noPrecedence f))
    | .ok true => flush g incoming rest (top :: output)
    | .ok false => (⟨top :: rest, output⟩, none)

/-- Sends operators to the output down to the opening bracket, and then the bracket, if it is
    the partner of the closing one. -/
def closeBracket (g : Grammar) (closing : Token) :
    (operators output : List Token) → Stacks × Option EngineFault
  | [], output => (⟨[], output⟩, some (.emptyStack closing))
  | top :: rest, output =>
    if top.kind = .opening then
      if (g.openingFor? closing).map (·.toLexeme) = some top.toLexeme then
        (⟨rest, top :: output⟩, none)
      -- the wrong bracket is gone from both stacks
      else (⟨rest, output⟩, some (.mismatched top closing))
    else if top.kind = .start then (⟨top :: rest, output⟩, some (.noOpening closing))
    else closeBracket g closing rest (top :: output)

/-- Takes in a token. -/
def consume (g : Grammar) (s : Stacks) (t : Token) : Stacks × Option EngineFault :=
  match t.kind with
  -- operands go straight to the output
  | .identifier => ({ s with output := t :: s.output }, none)
  | .opening => ({ s with operators := t :: s.operators }, none)
  | .closing => closeBracket g t s.operators s.output
  -- an operation waits once everything tighter before it is out
  | .unary | .binary =>
    match flush g t s.operators s.output with
    | (s, some f) => (s, some f)
    | (s, none) => ({ s with operators := t :: s.operators }, none)
  -- the end sends out what waits, but does not wait itself
  | .finish => flush g t s.operators s.output
  | .start => (s, some (.unexpected t))

end Stacks

/-! ## §3 Runs -/

/-- The stacks with the tokens still to come and the checker. -/
structure Engine extends Stacks where
  stream : Cursor Token := ⟨[]⟩
  checker : Checker := {}
deriving DecidableEq, Repr

/-- A run: the states before each token and, if all were taken in, after the last; the state
    that is left; and the tokens in postfix order or why there are none. -/
structure Run where
  visited : List Engine
  engine : Engine
  result : Except EngineFault (List Token)

namespace Engine

/-- Checks the next token and takes it in. A token that is refused stays in the stream. -/
def advance (g : Grammar) (e : Engine) (t : Token) (rest : List Token) :
    Engine × Option EngineFault :=
  match e.checker.check g t with
  | (checker, some r) => ({ e with checker }, some (.rejected r))
  | (checker, none) =>
    let (next, fault) := e.toStacks.consume g t
    ({ toStacks := next, stream := ⟨rest⟩, checker }, fault)

/-- Takes in all tokens of the stream, up to the first failure. -/
def readAll (g : Grammar) (e : Engine) :
    (stream : List Token) → List Engine × Engine × Option EngineFault
  | [] => ([e], e, none)
  | t :: rest =>
    match e.advance g t rest with
    | (next, some f) => ([e], next, some f)
    | (next, none) =>
      let (visited, last, fault) := readAll g next rest
      (e :: visited, last, fault)

/-- Where the line ends: behind its last token, or at zero if that token takes up nothing. -/
def endOffset? (tokens : List Token) : Except Span Int :=
  match tokens.getLast?.bind (·.span) with
  | none => .ok 0
  | some s =>
    match s.length? with
    | none => .error s
    | some 0 => .ok 0
    | some _ => .ok s.stop

/-- Runs over the tokens of a line and the sentinel of its end. Only the sentinel of the
    beginning may be left on the operator stack, and is taken from it. -/
def run (g : Grammar) (e : Engine) (tokens : List Token) : Run :=
  match endOffset? tokens with
  | .error s => ⟨[], e, .error (.inverted s)⟩
  | .ok offset =>
    let stream := tokens ++ [Token.finish.placed (-1) (some ⟨offset, offset, 1⟩)]
    let ready := { e with stream := ⟨stream⟩, checker := e.checker.refresh }
    let (visited, last, fault) := readAll g ready stream
    match fault with
    | some f => ⟨visited, last, .error f⟩
    | none =>
      -- a finished run leaves no sentinel for the next one
      if last.operators.map (·.toLexeme) = [Token.start.toLexeme] then
        ⟨visited, { last with operators := [] }, .ok last.output.reverse⟩
      else ⟨visited, last, .error (.leftPending last.operators.reverse.tail)⟩

/-- The stacks, their tops first, and the stream. -/
def snapshot (e : Engine) : String :=
  let row (ts : List Token) := Cursor.row (ts.map (·.symbol))
  "\nOutput: ->" ++ row e.output ++ "\nOperators: ->" ++ row e.operators ++
    "\nTokenStream:" ++ e.stream.text (·.symbol)

end Engine

end Fixity
