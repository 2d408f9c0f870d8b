import AugmentedBnf.CommandLine.Arguments
import AugmentedBnf.CommandLine.Report
import AugmentedBnf.Compilation
import AugmentedBnf.Grammar.Render
import AugmentedBnf.Nfa.Reachable
import AugmentedBnf.Reader.Stream

/-!
# Sessions

A run of the command prints the rules of a grammar and their classification. If it is asked for a
rule, it compiles that rule and prints the number of its states. What is printed before a failure
stays.
-/

namespace AugmentedBnf

namespace CommandLine

/-- What a run of the command leaves behind. -/
structure Session where
  /-- Zero for a success, one for a failure and two for arguments that are not understood. -/
  exit : UInt32
  /-- What is printed. -/
  output : String
  /-- The report of a failure. -/
  report : Option Report
  /-- Whether there is a warning that some rules are not regular. -/
  warned : Bool
deriving DecidableEq, Repr

/-- A run that fails before anything is printed. -/
def Session.failure (report : Report) : Session := ⟨1, "", some report, false⟩

/-- A run whose arguments are not understood. -/
def Session.misuse : Session := ⟨2, "", none, false⟩

/-- The rules of a class, between two lines with its name. -/
def renderClass (title : String) (rules : List Rule) : String :=
  "Begin " ++ title ++ " Rules\n" ++ Rule.renderLines rules ++ "End " ++ title ++ " Rules\n"

def renderClassification (classification : Classification) : String :=
  renderClass "Regular" classification.regular.rules ++
    renderClass "Self-resolvable" classification.selfResolvable ++
    renderClass "Unresolved" classification.unresolved

def renderSize (nfa : Nfa) : String := "Total states = " ++ toString nfa.reachable.size ++ "\n"

def readReport (path : String) (error : ReadError) : Report :=
  ⟨"read grammar: " ++ path,
    match error with
    | .stream reason => [error.message, reason]
    | _ => [error.message]⟩

/-- The part of a run that begins when the grammar is read. -/
def Invocation.process (invocation : Invocation) (grammar : Grammar) : Session :=
  let classification := grammar.classify
  let output := grammar.render ++ renderClassification classification
  let warned := !classification.isRegular
  match invocation.root with
  | none => ⟨0, output, none, warned⟩
  | some root =>
    match classification.regular.compile invocation.options root with
    | .ok nfa => ⟨0, output ++ renderSize nfa, none, warned⟩
    | .error error => ⟨1, output, some ⟨error.message, []⟩, warned⟩

/-- A run of the command on what opening the path gives: a stream, or the reason for a failure. -/
def Invocation.run (invocation : Invocation) (opened : Except String (List StreamEvent)) :
    Session :=
  match opened with
  | .error reason => .failure ⟨"open grammar file: " ++ invocation.path, [reason]⟩
  | .ok events =>
    match Grammar.ofStream events with
    | .error error => .failure (readReport invocation.path error)
    | .ok grammar => invocation.process grammar

/-- A run of the command with arguments, where a function tells what opening a path gives. -/
def run (openFile : String → Except String (List StreamEvent)) (arguments : List String) :
    Session :=
  match Invocation.ofArguments? arguments with
  | some invocation => invocation.run (openFile invocation.path)
  | none => .misuse

end CommandLine

end AugmentedBnf
