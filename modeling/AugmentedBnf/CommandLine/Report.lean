/-!
# Reports

A failure of the command is reported by what it was about and by what caused it. A single cause is
indented, and several are numbered, each being the cause of the one above it.
-/

namespace AugmentedBnf

namespace CommandLine

/-- A failure and its causes. -/
structure Report where
  message : String
  causes : List String
deriving DecidableEq, Repr

namespace Report

/-- The lines of a cause, the first behind a label and the others behind a margin. -/
def cause (label margin text : String) : String :=
  "\n" ++ label ++ String.intercalate ("\n" ++ margin) (text.splitOn "\n")

/-- The causes of a failure, numbered from zero if there are several. -/
def renderCauses : List String → String
  | [] => ""
  | [text] => "\n\nCaused by:" ++ cause "    " "    " text
  | causes => "\n\nCaused by:" ++ String.join (causes.zipIdx.map fun (text, number) =>
      cause (numbered (toString number)) "       " text)
where
  numbered (number : String) : String :=
    String.ofList (List.replicate (5 - number.length) ' ') ++ number ++ ": "

def render (report : Report) : String :=
  "Error: " ++ report.message ++ renderCauses report.causes ++ "\n"

end Report

end CommandLine

end AugmentedBnf
