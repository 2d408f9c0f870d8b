import AugmentedBnf.Grammar.Equality
import AugmentedBnf.Grammar.References

/-!
# Classification

A finite automaton can be built for a rule if the rules it refers to can be found in an order in
which each of them refers to earlier ones only. Such rules are *regular*. A rule that refers to
itself, and otherwise to rules that are found, is *self-resolvable*: it counts as found for the
rules that refer to it, although no automaton is built for it. The rules are gone through in
passes, from the last to the first, until a pass finds nothing new, and what is left then is
*unresolved*.
-/

namespace AugmentedBnf

/-- Regular rules, in the order in which they are found. -/
structure RegularRules where
  rules : List Rule
deriving DecidableEq

namespace RegularRules

/-- The rule of a name. Of several it is the one found last. -/
def get? (regular : RegularRules) (name : String) : Option Rule :=
  regular.rules.reverse.find? (·.name == name)

def contains (regular : RegularRules) (name : String) : Bool :=
  regular.rules.any (·.name == name)

def size (regular : RegularRules) : Nat := regular.rules.length

def isEmpty (regular : RegularRules) : Bool := regular.rules.isEmpty

end RegularRules

/-- What is known of a rule that is found. -/
inductive Verdict where
  | regular
  | selfResolvable
deriving DecidableEq, Repr

/-- The rules found so far, in the order in which they are found. -/
structure Findings where
  regular : List Rule
  selfResolvable : List Rule
deriving DecidableEq

namespace Findings

def satisfies (found : Findings) (name : String) : Bool :=
  found.regular.any (·.name == name) || found.selfResolvable.any (·.name == name)

/-- What can be said of a rule: nothing as long as it refers to another rule that is not found. -/
def judge? (found : Findings) (rule : Rule) : Option Verdict :=
  let references := Alternation.references rule.body
  if references.all found.satisfies then some .regular
  else if references.contains rule.name &&
      references.all fun name => name == rule.name || found.satisfies name then
    some .selfResolvable
  else none

def add (found : Findings) (rule : Rule) : Verdict → Findings
  | .regular => { found with regular := found.regular ++ [rule] }
  | .selfResolvable => { found with selfResolvable := found.selfResolvable ++ [rule] }

/-- The findings after a look at one rule, and the rules left, of which it becomes the first if
nothing can be said of it. -/
def consider (rule : Rule) (state : Findings × List Rule) : Findings × List Rule :=
  match state.1.judge? rule with
  | some verdict => (state.1.add rule verdict, state.2)
  | none => (state.1, rule :: state.2)

/-- One pass over the rules left, from the last to the first. -/
def pass (found : Findings) (left : List Rule) : Findings × List Rule :=
  left.foldr consider (found, [])

/-- Passes until one of them finds nothing new. The first argument bounds them. -/
def passes : Nat → Findings → List Rule → Findings × List Rule
  | 0, found, left => (found, left)
  | turns + 1, found, left =>
    let next := pass found left
    if next.2.length = left.length then next else passes turns next.1 next.2

end Findings

/-- Rules by what can be said of them. -/
structure Classification where
  regular : RegularRules
  /-- Rules that refer to themselves and to rules found, in the order in which they are found. -/
  selfResolvable : List Rule
  /-- Rules nothing can be said of, in the order in which they are given. -/
  unresolved : List Rule
deriving DecidableEq

def Classification.isRegular (classification : Classification) : Bool :=
  classification.selfResolvable.isEmpty && classification.unresolved.isEmpty

/-- The classification of rules. Every pass but the last finds a rule, so there are no more of these
than rules. -/
def classify (rules : List Rule) : Classification :=
  let (found, unresolved) := Findings.passes rules.length ⟨[], []⟩ rules
  ⟨⟨found.regular⟩, found.selfResolvable, unresolved⟩

def Grammar.classify (grammar : Grammar) : Classification := AugmentedBnf.classify grammar.rules

end AugmentedBnf
