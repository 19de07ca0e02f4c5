import Fixity.Text.Digit
import Fixity.Text.Quoted

/-!
# The command line

Arguments are sorted into switches and words first, and then taken in from left to right. Long
switches may be cut short while they stay clear; short ones may be written together. The first
word is the grammar file. After two dashes everything is a word.
-/

namespace Fixity.CommandLine

/-! ## §1 Switches -/

/-- What can be switched on. -/
inductive Switch where
  | help
  | debug
  | reportErrors
deriving DecidableEq, Repr

/-- The names of a switch. -/
def Switch.names : Switch → List String
  | help => ["-h", "--help"]
  | debug => ["-d", "--debug"]
  | reportErrors => ["--report-errors"]

/-- The name of a switch in messages. -/
def Switch.title (s : Switch) : String :=
  "/".intercalate s.names

/-- All names with what they switch on. -/
def switches : List (String × Switch) :=
  [Switch.help, .debug, .reportErrors].flatMap fun s => s.names.map (·, s)

/-! ## §2 Sorting arguments -/

/-- An argument by what it may be. -/
inductive Argument where
  /-- A word, for instance the name of a file. -/
  | word (text : String)
  /-- A switch by one of its names, with what is written behind the name. -/
  | switch (which : Switch) (name : String) (rest : Option String)
  /-- It looks like a switch, but there is none of this name. -/
  | unknown (text : String)
  /-- Two dashes. -/
  | separator
  /-- The beginning of several switches. -/
  | ambiguous (text : String) (names : List String)
deriving DecidableEq, Repr

/-- The text up to the first equals sign and the text behind it. -/
def cutAtEquals (cs : List Char) : List Char × Option (List Char) :=
  match cs.dropWhile (· ≠ '=') with
  | [] => (cs, none)
  | _ :: rest => (cs.takeWhile (· ≠ '='), some rest)

/-- Whether characters are the digits of a number, perhaps with a point before the last ones. -/
def isNumber (cs : List Char) : Bool :=
  let isDigit c := (Text.digitValue? c).isSome
  match cs.dropWhile isDigit with
  | [] => cs ≠ []
  | '.' :: decimals => decimals ≠ [] && decimals.all isDigit
  | _ => false

/-- The switches that a text may stand for: one named by its beginning, or those whose names
    it begins. -/
def candidates (cs : List Char) : List Argument :=
  match cs with
  | '-' :: '-' :: _ =>
    let (start, rest) := cutAtEquals cs
    (switches.filter fun s => start.isPrefixOf s.1.toList).map fun s =>
      .switch s.2 s.1 (rest.map String.ofList)
  | _ =>
    switches.filterMap fun s =>
      if s.1.toList = cs.take 2 then some (.switch s.2 s.1 (some (String.ofList (cs.drop 2))))
      else if cs.isPrefixOf s.1.toList then some (.switch s.2 s.1 none)
      else none

/-- What an argument may be that is none of the names of switches. -/
def sortUnnamed (text : String) : Argument :=
  let cs := text.toList
  match candidates cs with
  | [a] => a
  | [] =>
    -- a line feed at the end of a number does no harm
    let digits := if cs.getLast? = some '\n' then cs.tail.dropLast else cs.tail
    if isNumber digits || cs.contains ' ' then .word text else .unknown text
  | several =>
    .ambiguous text <| several.filterMap fun a =>
      match a with
      | .switch _ name _ => some name
      | _ => none

/-- What an argument may be. A single dash, a negative number and a text with a space are
    words. -/
def sort (text : String) : Argument :=
  let cs := text.toList
  if cs.head? ≠ some '-' then .word text
  else
    match switches.lookup text with
    | some s => .switch s text none
    | none =>
      if cs.length = 1 then .word text
      else
        match cutAtEquals cs with
        | (start, some rest) =>
          match switches.lookup (String.ofList start) with
          | some s => .switch s (String.ofList start) (some (String.ofList rest))
          | none => sortUnnamed text
        | _ => sortUnnamed text

/-- What all arguments may be. -/
def sortAll : List String → List Argument
  | [] => []
  | text :: rest =>
    if text = "--" then .separator :: rest.map .word else sort text :: sortAll rest

/-! ## §3 Taking arguments in -/

/-- What the command line asks for. -/
structure Options where
  grammar : Option String := none
  debug : Bool := false
  reportErrors : Bool := false
deriving DecidableEq, Repr

/-- What comes of a command line. -/
inductive Request where
  /-- A session under these options. -/
  | session (options : Options)
  /-- The help text. -/
  | help
  /-- A complaint about the command line. -/
  | misuse (message : String)
deriving DecidableEq, Repr

/-- The complaint about a text behind the name of a switch. -/
def ignored (which : Switch) (text : String) : String :=
  s!"argument {which.title}: ignored explicit argument {Text.quote text}"

/-- The switches of an argument: its own, and those of the letters behind a short name. No
    switch takes a value. -/
def chain (which : Switch) (short : Bool) : List Char → Except String (List Switch)
  | [] => .ok [which]
  | c :: cs =>
    if short then
      match switches.lookup (String.ofList ['-', c]) with
      | some next => (chain next true cs).map (which :: ·)
      | none => .error (ignored which (String.ofList (c :: cs)))
    else .error (ignored which (String.ofList (c :: cs)))

/-- The switches that an argument turns on. -/
def turnedOn (which : Switch) (name : String) (rest : Option String) :
    Except String (List Switch) :=
  match rest with
  | none => .ok [which]
  | some "" => .error (ignored which "")
  | some text => chain which (!name.startsWith "--") text.toList

/-- The options with a switch turned on; none for the one that asks for help. -/
def Options.turnOn? (o : Options) : Switch → Option Options
  | .help => none
  | .debug => some { o with debug := true }
  | .reportErrors => some { o with reportErrors := true }

/-- Takes in arguments. A word is the grammar file, if none was given before; other words and
    unknown switches are left over. The separator belongs to the grammar file if it stands
    beside it. -/
def takeIn (o : Options) (leftover : List String) : List Argument → Request
  | [] =>
    if leftover = [] then .session o
    else .misuse ("unrecognized arguments: " ++ " ".intercalate leftover)
  | .switch which name rest :: more =>
    match turnedOn which name rest with
    | .error message => .misuse message
    | .ok which =>
      match which.foldlM Options.turnOn? o with
      | none => .help
      | some o => takeIn o leftover more
  -- the separator goes with the word before it, if that word is taken
  | .word text :: .separator :: more =>
    if o.grammar = none then takeIn { o with grammar := some text } leftover more
    else takeIn o (leftover ++ [text, "--"]) more
  | .word text :: more =>
    if o.grammar = none then takeIn { o with grammar := some text } leftover more
    else takeIn o (leftover ++ [text]) more
  | .separator :: more =>
    if o.grammar = none then takeIn o leftover more else takeIn o (leftover ++ ["--"]) more
  | .unknown text :: more => takeIn o (leftover ++ [text]) more
  | .ambiguous _ _ :: more => takeIn o leftover more

/-- The complaint about the first argument that may be several switches. -/
def ambiguity? (arguments : List Argument) : Option String :=
  arguments.findSome? fun a =>
    match a with
    | .ambiguous text names =>
      some (s!"ambiguous option: {text} could match " ++ ", ".intercalate names)
    | _ => none

/-- What a list of arguments asks for. -/
def read (arguments : List String) : Request :=
  let sorted := sortAll arguments
  match ambiguity? sorted with
  | some message => .misuse message
  | none => takeIn {} [] sorted

/-! ## §4 Texts -/

/-- The line that sums up the arguments. -/
def usage : String :=
  "usage: opparse [-h] [-d] [--report-errors] [grammar]\n"

/-- The help text. -/
def helpText : String :=
  usage ++
  "\nParse expressions read from standard input under an operator grammar.\n" ++
  "\npositional arguments:\n" ++
  "  grammar          Path to grammar specification (default: $OPPARSE_GRAMMAR)\n" ++
  "\noptions:\n" ++
  "  -h, --help       show this help message and exit\n" ++
  "  -d, --debug      Trace parser stacks on stderr\n" ++
  "  --report-errors  Print a diagnostic for lines that fail to parse instead of\n" ++
  "                   skipping them\n"

end Fixity.CommandLine
