import AugmentedBnf.Radix

/-!
# Grammars

The notation describes a language by rules. The body of a rule is an alternation: branches, each
of them a concatenation of repetitions, and a repetition is an element with optional bounds on how
often it occurs. Groups and options hold alternations again, so elements and repetitions are
defined together.
-/

namespace AugmentedBnf

/-- How often an element occurs. A missing maximum sets no bound. -/
structure Repeat where
  min : UInt32
  max : Option UInt32
  /-- Whether the bounds are written around a `*`, rather than as a bare count. -/
  starred : Bool
deriving DecidableEq, Repr

/-- A bare count, which sets a minimum. -/
def Repeat.count (count : UInt32) : Repeat := ⟨count, none, false⟩

/-- A minimum and perhaps a maximum, written around a `*`. -/
def Repeat.between (min : UInt32) (max : Option UInt32) : Repeat := ⟨min, max, true⟩

/-- Octets given by their numbers: as a range with its two bounds, or as a sequence. -/
structure Numeric where
  radix : Radix
  ranged : Bool
  values : List UInt32
deriving DecidableEq, Repr

mutual

inductive Element where
  /-- The body of the rule with a name. Names that differ in letter case are different. -/
  | reference (name : String)
  /-- An alternation in parentheses. -/
  | group (body : List (List Repetition))
  /-- An alternation in square brackets, which may be left out. -/
  | option (body : List (List Repetition))
  /-- A quoted text, whose letters stand for both cases. -/
  | literal (octets : List Octet)
  /-- Octets given by their numbers. -/
  | numeric (value : Numeric)
  /-- A description in angle brackets, which stands for its own text. -/
  | prose (octets : List Octet)

/-- An element and how often it occurs, which is once where no bounds are given. -/
structure Repetition where
  bounds : Option Repeat
  element : Element

end

/-- Repetitions one after the other. -/
abbrev Concatenation := List Repetition

/-- Branches, any of which may be taken. -/
abbrev Alternation := List Concatenation

def Repetition.once (element : Element) : Repetition := ⟨none, element⟩

/-- How a definition introduces its branches. -/
inductive Marker where
  /-- As the definition of the rule, with `=`. -/
  | basic
  /-- As more branches of the rule, with `=/`. -/
  | incremental
deriving DecidableEq, Repr

structure Rule where
  name : String
  marker : Marker
  body : Alternation

/-- Rules in the order in which their names first occur. -/
structure Grammar where
  rules : List Rule

def Grammar.rule? (grammar : Grammar) (name : String) : Option Rule :=
  grammar.rules.find? (·.name == name)

end AugmentedBnf
