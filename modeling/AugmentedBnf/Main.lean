import AugmentedBnf.CommandLine.Session

/-!
# The command

Compiles the rules of grammars into finite automata. The only effects are here: a file is read, and
what the run of the command leaves behind is written.
-/

open AugmentedBnf CommandLine

/-- How a failure of the operating system is told. -/
def describeFailure : IO.Error → String
  | .noFileOrDirectory _ code details | .permissionDenied _ code details
  | .inappropriateType _ code details | .invalidArgument _ code details
  | .resourceExhausted _ code details | .noSuchThing _ code details =>
    details ++ " (os error " ++ toString code ++ ")"
  | error => toString error

/-- What is told to someone whose arguments are not understood. -/
def usage : String :=
  "usage: [-r NAME] [--repeat-limit COUNT] [--inclusive-ranges] [--exact-counts] [-v] PATH"

/-- What opening a path gives. The whole file is read at once. -/
def openFile (path : String) : IO (Except String (List StreamEvent)) := do
  match ← (IO.FS.Handle.mk path .read).toBaseIO with
  | .error error => return .error (describeFailure error)
  | .ok handle =>
    match ← handle.readBinToEnd.toBaseIO with
    | .error error => return .ok [.failure (describeFailure error)]
    | .ok octets => return .ok [.piece octets.toList]

def write (session : Session) : IO Unit := do
  IO.print session.output
  if session.warned then
    IO.eprintln "grammar is not regular; only regular rules can be compiled"
  if let some report := session.report then IO.eprint report.render

def main (arguments : List String) : IO UInt32 := do
  match Invocation.ofArguments? arguments with
  | none =>
    IO.eprintln usage
    return Session.misuse.exit
  | some invocation =>
    let session := invocation.run (← openFile invocation.path)
    write session
    return session.exit
