import AugmentedBnf.Grammar.Basic
import AugmentedBnf.Reader.Lexical

/-!
# Reading rule bodies

The readers of alternations, concatenations, repetitions and elements. Groups and options hold
alternations, so the readers for a depth of nesting are built from those for one level less. Every
level opens with a bracket, and therefore the length of the input is depth enough.
-/

namespace AugmentedBnf

namespace Reader

/-- Repeat bounds: a count, or a `*` with a minimum and a maximum that may be left out. -/
def bounds : Reader Repeat := fun input => do
  let (min, rest) ← optional (number .decimal) input
  let (star, rest) ← optional (exactly .repeatStar '*') rest
  match min, star with
  | some count, none => return (Repeat.count count, rest)
  | min, some _ =>
    let (max, rest) ← optional (number .decimal) rest
    return (Repeat.between (min.getD 0) max, rest)
  | none, none => .error ⟨.repeatCount, input, false⟩

def delimited (opening closing : Char) (start stop : Expected) (accepts : Octet → Bool) :
    Reader (List Octet) := do
  exactly start opening
  commit do
    let octets ← takeWhile accepts
    exactly stop closing
    return octets

def literal : Reader (List Octet) :=
  delimited '"' '"' .openingQuote .closingQuote Octet.isQuotable

def prose : Reader (List Octet) :=
  delimited '<' '>' .openingAngle .closingAngle Octet.isProse

def radix : Reader Radix
  | first :: rest =>
    match Radix.ofLetter? first with
    | some radix => .ok (radix, rest)
    | none => .error ⟨.radixLetter, first :: rest, false⟩
  | [] => .error ⟨.radixLetter, [], false⟩

/-- A numeric value. A full stop or a hyphen without a digit behind it is not part of it. -/
def numeric : Reader Numeric := do
  exactly .percentSign '%'
  commit do
    let radix ← radix
    let first ← number radix
    let others ← many (do exactly .sequenceDot '.'; number radix)
    if others ≠ [] then return ⟨radix, false, first :: others⟩
    let upper ← optional (do exactly .rangeHyphen '-'; number radix)
    match upper with
    | some upper => return ⟨radix, true, [first, upper]⟩
    | none => return ⟨radix, false, [first]⟩

/-- An element with its bounds, if there are any. -/
def repetitionOf (element : Reader Element) : Reader Repetition := do
  let bounds ← optional bounds
  let element ← element
  return ⟨bounds, element⟩

/-- Repetitions, set apart from each other. -/
def concatenationOf (element : Reader Element) : Reader Concatenation := do
  let first ← repetitionOf element
  let others ← many (do let _ ← many1 blank; repetitionOf element)
  return first :: others

/-- Branches with a slash between them. Behind a slash there has to be a branch. -/
def alternationOf (element : Reader Element) : Reader Alternation := do
  let first ← concatenationOf element
  let others ← many do
    blanks
    exactly .branchSlash '/'
    commit (do blanks; concatenationOf element)
  return first :: others

def bracketed (opening closing : Char) (expected : Expected) (element : Reader Element) :
    Reader Alternation := do
  exactly .openingBracket opening
  commit do
    blanks
    let body ← alternationOf element
    blanks
    exactly expected closing
    return body

/-- An element, which its first octet tells the kind of. The argument reads the elements inside of
it. -/
def elementOf (element : Reader Element) : Reader Element
  | [] => .error ⟨.element, [], false⟩
  | first :: rest =>
    if first.isAlpha then (.reference <$> ruleName) (first :: rest)
    else if first = '('.toUInt8 then
      (.group <$> bracketed '(' ')' .closingParenthesis element) (first :: rest)
    else if first = '['.toUInt8 then
      (.option <$> bracketed '[' ']' .closingSquareBracket element) (first :: rest)
    else if first = '"'.toUInt8 then (.literal <$> literal) (first :: rest)
    else if first = '%'.toUInt8 then (.numeric <$> numeric) (first :: rest)
    else if first = '<'.toUInt8 then (.prose <$> prose) (first :: rest)
    else .error ⟨.element, first :: rest, false⟩

/-- An element with at most the given depth of nesting. -/
def elementUpTo : Nat → Reader Element
  | 0, input => fail .element input
  | depth + 1, input => elementOf (elementUpTo depth) input

def alternation : Reader Alternation := fun input =>
  alternationOf (elementUpTo input.length) input

/-- A rule body: an alternation, and the white space and comments behind it. -/
def body : Reader Alternation := do
  let body ← alternation
  blanks
  return body

end Reader

end AugmentedBnf
