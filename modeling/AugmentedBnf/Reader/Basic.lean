import AugmentedBnf.Octet

/-!
# Readers

A reader takes a value off the front of a list of octets, or tells what it expected and where.
Of several ways to go on, a reader takes the first that succeeds. A mismatch that is committed
ends this search, and of mismatches that are not, the one furthest into the input is reported.
-/

namespace AugmentedBnf

inductive Expected where
  | ruleName
  | definitionMarker
  | incrementalSlash
  | branchSlash
  | element
  | repeatCount
  | repeatStar
  | openingBracket
  | closingParenthesis
  | closingSquareBracket
  | openingQuote
  | closingQuote
  | openingAngle
  | closingAngle
  | percentSign
  | radixLetter
  | binaryDigit
  | decimalDigit
  | hexadecimalDigit
  | sequenceDot
  | rangeHyphen
  | wordValue
  | spaceOrTab
  | carriageReturn
  | lineFeedAfterReturn
  | lineBreak
  | semicolon
  | commentOrLineBreak
  | line
  | endOfInput
  /-- Some progress, from a reader that was to be run again and again. -/
  | progress
deriving DecidableEq, Repr

def Expected.text : Expected → String
  | ruleName => "rule name"
  | definitionMarker => "`=` or `=/`"
  | incrementalSlash | branchSlash => "`/`"
  | element => "rule name, group, option, or literal"
  | repeatCount => "repeat count"
  | repeatStar => "`*`"
  | openingBracket => "opening bracket"
  | closingParenthesis => "`)`"
  | closingSquareBracket => "`]`"
  | openingQuote => "`\"`"
  | closingQuote => "closing `\"`"
  | openingAngle => "`<`"
  | closingAngle => "closing `>`"
  | percentSign => "`%`"
  | radixLetter => "`b`, `d`, or `x`"
  | binaryDigit => "binary digit"
  | decimalDigit => "decimal digit"
  | hexadecimalDigit => "hexadecimal digit"
  | sequenceDot => "`.`"
  | rangeHyphen => "`-`"
  | wordValue => "value that fits in 32 bits"
  | spaceOrTab => "space or tab"
  | carriageReturn => "CR"
  | lineFeedAfterReturn => "LF after CR"
  | lineBreak => "line break"
  | semicolon => "`;`"
  | commentOrLineBreak => "comment or line break"
  | line => "rule name, comment, or line break"
  | endOfInput => "end of input"
  | progress => "well-formed grammar"

/-- Why a reader fails. -/
structure Mismatch where
  expected : Expected
  /-- The input from where the expected is missing. -/
  rest : List Octet
  /-- Whether no other way to go on is to be tried. -/
  committed : Bool
deriving DecidableEq, Repr

/-- Of two mismatches, the one further into the input, and the first if neither is. -/
def Mismatch.furthest (first second : Mismatch) : Mismatch :=
  if second.rest.length < first.rest.length then second else first

/-! ### Readers -/

/-- A reader of values: from the input to a value and the input behind it. -/
abbrev Reader := StateT (List Octet) (Except Mismatch)

namespace Reader

variable {α : Type}

/-- A failure that leaves other ways open. -/
def fail (expected : Expected) : Reader α := fun input => .error ⟨expected, input, false⟩

def octet (expected : Expected) (accepts : Octet → Bool) : Reader Octet
  | first :: rest =>
    if accepts first then .ok (first, rest) else .error ⟨expected, first :: rest, false⟩
  | [] => .error ⟨expected, [], false⟩

/-- One octet, the code of a given character. -/
def exactly (expected : Expected) (char : Char) : Reader Unit := do
  let _ ← octet expected (· == char.toUInt8)

/-- Nothing, where the input ends. -/
def endOfInput : Reader Unit
  | [] => .ok ((), [])
  | input => .error ⟨.endOfInput, input, false⟩

/-- The longest run of octets of a class, which may be empty. -/
def takeWhile (accepts : Octet → Bool) : Reader (List Octet) := fun input =>
  .ok (input.takeWhile accepts, input.dropWhile accepts)

def or (first second : Reader α) : Reader α := fun input =>
  match first input with
  | .ok result => .ok result
  | .error mismatch =>
    if mismatch.committed then .error mismatch
    else match second input with
      | .ok result => .ok result
      | .error other =>
        if other.committed then .error other else .error (mismatch.furthest other)

def optional (reader : Reader α) : Reader (Option α) := fun input =>
  match reader input with
  | .ok (value, rest) => .ok (some value, rest)
  | .error mismatch => if mismatch.committed then .error mismatch else .ok (none, input)

/-- A reader whose failures close other ways. -/
def commit (reader : Reader α) : Reader α := fun input =>
  match reader input with
  | .ok result => .ok result
  | .error mismatch => .error { mismatch with committed := true }

/-- A reader that reports, where it fails at once, what it reads as a whole. -/
def label (expected : Expected) (reader : Reader α) : Reader α := fun input =>
  match reader input with
  | .ok result => .ok result
  | .error mismatch =>
    if mismatch.rest.length = input.length then .error ⟨expected, input, mismatch.committed⟩
    else .error mismatch

/-- As many values as there are, where every turn has to take something off the input. The first
argument bounds the turns. -/
def manyUpTo (reader : Reader α) : Nat → Reader (List α)
  | 0, input => .error ⟨.progress, input, false⟩
  | turns + 1, input =>
    match reader input with
    | .ok (value, rest) =>
      if rest.length = input.length then .error ⟨.progress, input, false⟩
      else match manyUpTo reader turns rest with
        | .ok (values, rest) => .ok (value :: values, rest)
        | .error mismatch => .error mismatch
    | .error mismatch => if mismatch.committed then .error mismatch else .ok ([], input)

/-- As many values as there are. No more turns succeed than the input has octets. -/
def many (reader : Reader α) : Reader (List α) := fun input =>
  manyUpTo reader (input.length + 1) input

def many1 (reader : Reader α) : Reader (List α) := do
  let first ← reader
  let rest ← many reader
  return first :: rest

end Reader

end AugmentedBnf
