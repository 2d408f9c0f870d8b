import AugmentedBnf.Classification
import AugmentedBnf.Pattern

/-!
# Expansion

The pattern that a name stands for among regular rules: references are replaced by the bodies of
the rules they name, and numeric values and repeat bounds are checked and spelled out. A body is
gone through from left to right, and the first fault in it is reported.
-/

namespace AugmentedBnf

/-- What a range of numeric values stands for. -/
inductive RangeMode where
  /-- The octet of its lower bound followed by the octet of its upper bound. -/
  | sequence
  /-- Any octet between its bounds. -/
  | inclusive
deriving DecidableEq, Repr

/-- What a bare count stands for. -/
inductive CountMode where
  /-- That many copies or more. -/
  | atLeast
  /-- That many copies. -/
  | exact
deriving DecidableEq, Repr

/-- The greatest number of copies if none is asked for. -/
def defaultRepeatLimit : UInt32 := 65536

structure Options where
  rangeMode : RangeMode := .sequence
  countMode : CountMode := .atLeast
  /-- The greatest number of copies that a repetition may need. -/
  repeatLimit : UInt32 := defaultRepeatLimit
deriving DecidableEq, Repr

/-- Why a body stands for no pattern. -/
inductive Fault where
  | emptyAlternation
  | undefinedRule (name : String)
  | incrementalRule (name : String)
  | invalidRepeat (min max : UInt32)
  | repeatTooLarge (count limit : UInt32)
  | valueOutOfRange (value : UInt32)
  | invalidRange (lower upper : Octet)
deriving DecidableEq, Repr

def Fault.text : Fault → String
  | emptyAlternation => "empty alternation"
  | undefinedRule name => "undefined rule reference: " ++ name
  | incrementalRule name => "cannot compile an incrementally-defined rule: " ++ name
  | invalidRepeat min max =>
    "invalid repeat: maximum " ++ toString max ++ " is below minimum " ++ toString min
  | repeatTooLarge count limit =>
    "repeat count " ++ toString count ++ " exceeds the limit of " ++ toString limit
  | valueOutOfRange value =>
    "numeric value 0x" ++ Radix.hexadecimal.numeral value.toNat ++ " does not fit in a byte"
  | invalidRange lower upper =>
    "range lower bound 0x" ++ lower.hexPair ++ " is above upper bound 0x" ++ upper.hexPair

/-- Why a name stands for no pattern. -/
inductive ExpansionError where
  /-- The body of a rule has a fault. Where the name itself does, it is the rule. -/
  | faulty (fault : Fault) (rule : String)
  /-- A rule refers to itself by way of others. This happens only where rules share a name. -/
  | endless (rule : String)
deriving DecidableEq, Repr

def ExpansionError.message : ExpansionError → String
  | faulty fault rule => "compiling rule " ++ rule ++ ": " ++ fault.text
  | endless rule => "compiling rule " ++ rule ++ ": endless rule reference"

def Repeat.maximum (bounds : Repeat) (mode : CountMode) : Option UInt32 :=
  match bounds.starred, mode with
  | false, .exact => some bounds.min
  | _, _ => bounds.max

/-- The fault of bounds, if they have one. Too many copies are reported before bounds that
contradict each other. -/
def Repeat.fault? (bounds : Repeat) (options : Options) : Option Fault :=
  let max := bounds.maximum options.countMode
  let copies := max.getD bounds.min
  if options.repeatLimit < copies then some (.repeatTooLarge copies options.repeatLimit)
  else match max with
    | some max => if max < bounds.min then some (.invalidRepeat bounds.min max) else none
    | none => none

/-- Whether bounds ask for no copy at all. With a `*` they allow for one even if the maximum is
zero. -/
def Repeat.isZero (bounds : Repeat) (mode : CountMode) : Bool :=
  !bounds.starred && bounds.min == 0 && bounds.maximum mode == some 0

/-- The fault of a numeric value, if it has one. -/
def Numeric.fault? (value : Numeric) (mode : RangeMode) : Option Fault :=
  match value.values.find? (0xFF < ·) with
  | some number => some (.valueOutOfRange number)
  | none =>
    match value.ranged, mode, value.values with
    | true, .inclusive, [lower, upper] =>
      if upper < lower then some (.invalidRange lower.toUInt8 upper.toUInt8) else none
    | _, _, _ => none

/-- The pattern of a numeric value without a fault. -/
def Numeric.pattern (value : Numeric) (mode : RangeMode) : Pattern :=
  match value.ranged, mode, value.values with
  | true, .inclusive, [lower, upper] => .range lower.toUInt8 upper.toUInt8
  | _, _, values => .word (values.map UInt32.toUInt8)

/-! ### Bodies and names -/

section

variable (options : Options) (rule : String) (inline : String → Except ExpansionError Pattern)

mutual

/-- The pattern of an element in the body of a rule, where another function tells the patterns of
names. -/
def Element.expand : Element → Except ExpansionError Pattern
  | .reference name => inline name
  | .group body => Alternation.expand body
  | .option body => do return .union .skip (← Alternation.expand body)
  | .literal octets | .prose octets => .ok (.text octets)
  | .numeric value =>
    match value.fault? options.rangeMode with
    | some fault => .error (.faulty fault rule)
    | none => .ok (value.pattern options.rangeMode)

/-- The pattern of a repetition. An element that occurs no time is not looked at. -/
def Repetition.expand : Repetition → Except ExpansionError Pattern
  | ⟨none, element⟩ => Element.expand element
  | ⟨some bounds, element⟩ =>
    match bounds.fault? options with
    | some fault => .error (.faulty fault rule)
    | none =>
      if bounds.isZero options.countMode then .ok .skip
      else do
        let pattern ← Element.expand element
        return pattern.repeated bounds.min.toNat
          ((bounds.maximum options.countMode).map UInt32.toNat)

def Concatenation.expand : Concatenation → Except ExpansionError Pattern
  | [] => .ok .skip
  | [repetition] => Repetition.expand repetition
  | repetition :: rest => do
    let first ← Repetition.expand repetition
    return .seq first (← Concatenation.expand rest)

/-- The pattern of an alternation, which must have a branch. -/
def Alternation.expand : Alternation → Except ExpansionError Pattern
  | [] => .error (.faulty .emptyAlternation rule)
  | [branch] => Concatenation.expand branch
  | branch :: rest => do
    let first ← Concatenation.expand branch
    return .union first (← Alternation.expand rest)

end

end

namespace RegularRules

variable (regular : RegularRules)

/-- The rule that a name stands for in the body of another rule. A rule without a basic definition
stands for nothing. -/
def resolve (rule name : String) : Except ExpansionError Rule :=
  match regular.get? name with
  | none => .error (.faulty (.undefinedRule name) rule)
  | some found =>
    match found.marker with
    | .incremental => .error (.faulty (.incrementalRule name) rule)
    | .basic => .ok found

/-- The pattern of a name in the body of a rule, with at most the given number of rules inside of
each other. -/
def inline (options : Options) : Nat → (rule name : String) → Except ExpansionError Pattern
  | 0, rule, name => do
    let found ← regular.resolve rule name
    .error (.endless found.name)
  | depth + 1, rule, name => do
    let found ← regular.resolve rule name
    Alternation.expand options found.name (inline options depth found.name) found.body

/-- The pattern of a name. Rules inside of each other all differ if the expansion ends, so there
are no more of them than there are rules. -/
def expand (options : Options) (root : String) : Except ExpansionError Pattern :=
  regular.inline options regular.size root root

end RegularRules

end AugmentedBnf
