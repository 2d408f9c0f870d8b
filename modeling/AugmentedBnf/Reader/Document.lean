import AugmentedBnf.Grammar.Merge
import AugmentedBnf.Reader.Body
import AugmentedBnf.Reader.Error
import AugmentedBnf.Text.Utf8

/-!
# Reading documents

A document is a sequence of definitions and of lines without one. All of it is read before its
definitions are merged, so that a mismatch anywhere wins over a rule defined once more.
-/

namespace AugmentedBnf

namespace Reader

/-- What stands between the name of a rule and its body. -/
def marker : Reader Marker := do
  blanks
  exactly .definitionMarker '='
  let slash ← optional (exactly .incrementalSlash '/')
  blanks
  return if slash.isSome then .incremental else .basic

/-- The definition of a rule, to the end of its line. The line may also end with the input. -/
def definition : Reader Rule := do
  let name ← ruleName
  commit do
    let marker ← marker
    let body ← body
    label .commentOrLineBreak (or commentOrLineBreak endOfInput)
    return ⟨name, marker, body⟩

def emptyLine : Reader Unit := label .line (do blanks; commentOrLineBreak)

/-- The definitions of a document of a given length, from some place of it on. A definition begins
with a letter, which no other line does. The last argument is that place, and the one before it
bounds the definitions and lines to come. -/
def definitionsUpTo (length : Nat) : Nat → List Octet → Except Mismatch (List Definition)
  | _, [] => .ok []
  | 0, rest => .error ⟨.progress, rest, false⟩
  | turns + 1, first :: rest =>
    if first.isAlpha then do
      let (rule, behind) ← definition (first :: rest)
      let definitions ← definitionsUpTo length turns behind
      return ⟨rule, length - (first :: rest).length⟩ :: definitions
    else do
      let ((), behind) ← emptyLine (first :: rest)
      definitionsUpTo length turns behind

/-- The definitions of a document. There are no more of them than the document has octets. -/
def definitions (document : List Octet) : Except Mismatch (List Definition) :=
  definitionsUpTo document.length document.length document

end Reader

def Grammar.read (document : List Octet) : Except ReadError Grammar :=
  match Reader.definitions document with
  | .error mismatch => .error (.ofMismatch document mismatch)
  | .ok definitions =>
    match Definition.merge definitions with
    | .error definition =>
      .error (.collision definition.rule.name (Position.locate document definition.offset))
    | .ok rules => .ok ⟨rules⟩

def Grammar.ofText (text : String) : Except ReadError Grammar := Grammar.read (Utf8.encode text)

/-- The alternation that octets give, where they are a rule body and nothing else. -/
def Alternation.read (octets : List Octet) : Except ReadError Alternation :=
  match (do let body ← Reader.body; Reader.endOfInput; return body : Reader _) octets with
  | .ok (body, _) => .ok body
  | .error mismatch => .error (.ofMismatch octets mismatch)

def Alternation.ofText (text : String) : Except ReadError Alternation :=
  Alternation.read (Utf8.encode text)

end AugmentedBnf
