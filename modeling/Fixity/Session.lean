import Fixity.CommandLine
import Fixity.Grammar.File
import Fixity.Parse
import Fixity.Path
import Fixity.Reporter

/-!
# Sessions

A session reads a grammar file and then one expression a line, up to an empty line. It prints
the tree of every line that has one; lines that have none are passed over, or explained among
the errors.
-/

namespace Fixity

/-! ## §1 What a session sees and shows -/

/-- All that a session depends on. Files and the directory are given by their whole path. -/
structure Session where
  arguments : List String
  directory : String
  /-- The contents of the files that can be read. -/
  files : String → Option ByteArray
  /-- Why a file cannot be read although it is there, in the words of the system. -/
  unreadable : String → Option String := fun _ => none
  input : String
  /-- Whether the stream of the input gives out every line end as a line feed. Systems differ in
      this; a stream that does not gives out the line ends as they are. -/
  translated : Bool := true
  defaultGrammar : Option String := none
  style : Style.Setting := {}

/-- How a session ends. -/
inductive Ending where
  /-- With an exit status. -/
  | exit (status : Nat)
  /-- At a failure that is not for the user to mend. -/
  | broken
deriving DecidableEq, Repr

/-- What a session writes and how it ends. -/
structure Transcript where
  output : String := ""
  errors : String := ""
  ending : Ending
deriving DecidableEq, Repr

/-- A transcript after something else was written. -/
def Transcript.after (t : Transcript) (output errors : String) : Transcript :=
  { t with output := output ++ t.output, errors := errors ++ t.errors }

namespace Session

/-! ## §2 Lines -/

/-- The entries of a log, each on lines of its own. -/
def logText (events : List Event) : String :=
  String.join (events.map (·.text ++ "\n"))

/-- The input as its stream gives it out. -/
def received (s : Session) : List Char :=
  if s.translated then Text.unifyNewlines s.input.toList else s.input.toList

/-- The lines of a text before the first empty one. A line ends at a line feed, and the carriage
    returns before it belong to its end. -/
def inputLines (text : List Char) : List String :=
  let lines := (Text.lines text).map Text.withoutEnd
  (lines.takeWhile (· ≠ [])).map String.ofList

/-- What is printed among the errors for a line that does not parse, and the reporter after
    that: the error is collected, printed and forgotten. -/
def explain? (r : Reporter) (e : ParseError) (line : String) (color : Bool) :
    Option (String × Reporter) :=
  let r := r.reportParse e line "<input>"
  (r.printed? color).map (·, r.clear)

/-- What a line adds to a session. -/
structure Turn where
  output : String := ""
  errors : String := ""
  reporter : Reporter
  ending : Option Ending := none
deriving DecidableEq, Repr

/-- Reads one line under a grammar. A failure that is no parse error breaks the session. -/
def turn (g : Grammar) (o : CommandLine.Options) (color : Bool) (r : Reporter) (line : String) :
    Turn :=
  let log := if o.debug then logText (g.events line) else ""
  match g.parse line with
  | .ok tree => { output := tree.toText ++ "\n", errors := log, reporter := r }
  | .error failure =>
    match failure.report with
    -- lines without a tree are passed over unless errors are asked for
    | .parseError e =>
      if o.reportErrors then
        match explain? r e line color with
        | some (shown, r) => { errors := log ++ shown, reporter := r }
        | none => { errors := log, reporter := r, ending := some .broken }
      else { errors := log, reporter := r }
    | _ => { errors := log, reporter := r, ending := some .broken }

/-- The last words of a session. -/
def farewell : Transcript :=
  { output := "Goodbye!\n", ending := .exit 0 }

/-- Reads lines one after the other. -/
def converse (g : Grammar) (o : CommandLine.Options) (color : Bool) (r : Reporter) :
    List String → Transcript
  | [] => farewell
  | line :: lines =>
    let t := turn g o color r line
    match t.ending with
    | some ending => { output := t.output, errors := t.errors, ending }
    | none => (converse g o color t.reporter lines).after t.output t.errors

/-! ## §3 Whole sessions -/

/-- What a command line leads to. -/
inductive Plan where
  /-- Nothing is left to do. -/
  | done (transcript : Transcript)
  /-- A grammar file is to be read. -/
  | read (options : CommandLine.Options) (file : String)

/-- A complaint about the command line. -/
def misuse (message : String) : Transcript :=
  { errors := CommandLine.usage ++ "opparse: error: " ++ message ++ "\n", ending := .exit 2 }

/-- The grammar file that the environment names, if it names one. -/
def environmentGrammar? (s : Session) : Option String :=
  (s.defaultGrammar.map fun name => String.ofList (Text.trim name.toList)).filter (· ≠ "")

/-- What is to be done first. -/
def plan (s : Session) : Plan :=
  match CommandLine.read s.arguments with
  | .help => .done { output := CommandLine.helpText, ending := .exit 0 }
  | .misuse message => .done (misuse message)
  | .session o =>
    match o.grammar.or s.environmentGrammar? with
    | none => .done (misuse "a grammar file is required (argument or $OPPARSE_GRAMMAR)")
    | some path => .read o (Path.resolve s.directory path)

/-- What the system gives out of a file: its contents, if there is such a file, or else why it
    cannot be read. -/
def contents (s : Session) (file : String) : Except String (Option ByteArray) :=
  match s.unreadable file with
  | some reason => .error reason
  | none => .ok (s.files file)

/-- What a grammar file leads to. -/
inductive Opening where
  /-- There is no session without a grammar. -/
  | refused (transcript : Transcript)
  /-- The session begins with these words. -/
  | ready (grammar : Grammar) (output errors : String)

/-- A session that does not begin, and why. -/
def refusal (reason : String) : Opening :=
  .refused { errors := "opparse: " ++ reason ++ "\n", ending := .exit 1 }

/-- How a session begins with what the system gives out of the grammar file. -/
def opening (o : CommandLine.Options) (file : String) (contents : Except String (Option ByteArray)) :
    Opening :=
  match contents with
  | .error reason => refusal ("error: could not read grammar: " ++ reason)
  | .ok contents =>
    match Grammar.load? contents file with
    | .error .missing => refusal ("error: grammar file not found: " ++ file)
    | .error .undecodable => .refused { ending := .broken }
    | .error (.refused f) => refusal f.report.text
    | .ok g =>
      .ready g "Enter an expression to parse:\n"
        (if o.debug then logText [.grammarBuilt g, .grammarLoaded file] else "")

/-- The transcript of a session. -/
def run (s : Session) : Transcript :=
  match s.plan with
  | .done t => t
  | .read o file =>
    match opening o file (s.contents file) with
    | .refused t => t
    | .ready g output errors =>
      (converse g o s.style.useColor {} (inputLines s.received)).after output errors

end Session

end Fixity
