import AugmentedBnf.Radix
import AugmentedBnf.Reader.Basic

/-!
# Lexical readers

Names and numbers, and what may stand between the parts of a rule: white space, line breaks and
comments.
-/

namespace AugmentedBnf

namespace Reader

def whiteSpace : Reader Unit := do
  let _ ← octet .spaceOrTab Octet.isWhiteSpace

/-- The end of a line: a carriage return and a line feed, or a line feed alone. -/
def lineBreak : Reader Unit :=
  or (do exactly .carriageReturn '\r'; exactly .lineFeedAfterReturn '\n')
    (exactly .lineBreak '\n')

/-- A semicolon and the rest of its line. The line may also end with the input. -/
def comment : Reader Unit := do
  exactly .semicolon ';'
  let _ ← takeWhile fun octet => octet.isWhiteSpace || octet.isVisible
  or lineBreak endOfInput

/-- The end of a line, behind a comment if there is one. -/
def commentOrLineBreak : Reader Unit := label .commentOrLineBreak (or comment lineBreak)

/-- A place where parts of a rule are set apart: white space, or the end of a line if the next one
is indented. -/
def blank : Reader Unit := or whiteSpace (do commentOrLineBreak; whiteSpace)

def blanks : Reader Unit := do
  let _ ← many blank

/-- A rule name: a letter, and then letters, digits and hyphens. -/
def ruleName : Reader String := do
  let first ← octet .ruleName Octet.isAlpha
  let rest ← takeWhile Octet.isNameTail
  return String.ofList ((first :: rest).map Octet.toChar)

/-- What is missing where a numeral has no digit. -/
def expectedDigit : Radix → Expected
  | .binary => .binaryDigit
  | .decimal => .decimalDigit
  | .hexadecimal => .hexadecimalDigit

/-- A numeral, whose value has to fit in 32 bits. -/
def number (radix : Radix) : Reader UInt32 := fun input =>
  match input.takeWhile radix.isDigit with
  | [] => .error ⟨expectedDigit radix, input, false⟩
  | digits =>
    if radix.value digits < UInt32.size then
      .ok (UInt32.ofNat (radix.value digits), input.dropWhile radix.isDigit)
    else .error ⟨.wordValue, input, true⟩

end Reader

end AugmentedBnf
