import AugmentedBnf.Position
import AugmentedBnf.Reader.Basic

/-!
# Errors of reading

Why a document is not a grammar, and how this is told to its writer.
-/

namespace AugmentedBnf

inductive ReadError where
  /-- Something else is expected at a position than what is found, or than the end of the input. -/
  | mismatch (expected : Expected) (actual : Option Octet) (position : Position)
  /-- A rule is defined once more at a position. -/
  | collision (rule : String) (position : Position)
  /-- The document cannot be had. -/
  | stream (reason : String)
deriving DecidableEq, Repr

namespace ReadError

def ofMismatch (document : List Octet) (mismatch : Mismatch) : ReadError :=
  .mismatch mismatch.expected mismatch.rest.head?
    (Position.locate document (document.length - mismatch.rest.length))

/-- Where the error is, if it is in the document. -/
def position? : ReadError → Option Position
  | mismatch _ _ position | collision _ position => some position
  | stream _ => none

/-- How messages name what was found: a printing character or space by itself and its code, another
octet by its code. -/
def describe : Option Octet → String
  | some octet =>
    let code := "[" ++ octet.hexPair ++ "]"
    if octet.isVisible || octet == 0x20 then "'" ++ octet.toChar.toString ++ "' " ++ code else code
  | none => "end of input"

def message : ReadError → String
  | mismatch expected actual position =>
    "mismatch with " ++ describe actual ++ " at " ++ position.render ++ "; expected " ++
      expected.text
  | collision rule position =>
    "collision at " ++ position.render ++ ": " ++ rule ++ " is redefined"
  | stream reason => "failed to read grammar: " ++ reason

end ReadError

end AugmentedBnf
