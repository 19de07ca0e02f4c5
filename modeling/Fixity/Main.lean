import Fixity.Session

/-!
# The program

Runs a session over the files, the environment and the streams of the system.
-/

namespace Fixity.Program

/-- Writes a transcript and gives the status to exit with. -/
def finish (t : Transcript) : IO UInt32 := do
  (← IO.getStdout).putStr t.output
  (← IO.getStderr).putStr t.errors
  match t.ending with
  | .exit status => return status.toUInt32
  | .broken => return 1

/-- What the system gives out of a file. A directory is no file. -/
def contents (file : String) : IO (Except String (Option ByteArray)) := do
  try
    return .ok (some (← IO.FS.readBinFile file))
  catch
    | .noFileOrDirectory .. | .inappropriateType .. => return .ok none
    | e => return .error (toString e)

/-- Reads and answers lines until one is empty or the input ends. -/
partial def talk (g : Grammar) (o : CommandLine.Options) (color : Bool) (r : Reporter) :
    IO UInt32 := do
  let piece ← (← IO.getStdin).getLine
  match Session.inputLines piece.toList with
  | [] => finish Session.farewell
  | line :: _ =>
    -- a piece goes up to the first line feed, so there is one line in it
    let t := Session.turn g o color r line
    (← IO.getStdout).putStr t.output
    (← IO.getStdout).flush
    (← IO.getStderr).putStr t.errors
    match t.ending with
    | some ending => finish { ending }
    | none => talk g o color t.reporter

/-- Runs a session over the arguments of the program. -/
def run (arguments : List String) : IO UInt32 := do
  let session : Session :=
    { arguments
      directory := (← IO.currentDir).toString
      files := fun _ => none
      input := ""
      defaultGrammar := ← IO.getEnv "OPPARSE_GRAMMAR"
      style := { noColor := ← IO.getEnv "NO_COLOR", color := ← IO.getEnv "OPPARSE_COLOR" } }
  match session.plan with
  | .done t => finish t
  | .read o file =>
    match Session.opening o file (← contents file) with
    | .refused t => finish t
    | .ready g output errors =>
      (← IO.getStdout).putStr output
      (← IO.getStdout).flush
      (← IO.getStderr).putStr errors
      talk g o session.style.useColor {}

end Fixity.Program

/-- The program. -/
def main (arguments : List String) : IO UInt32 :=
  Fixity.Program.run arguments
