import Std.Data.ExtTreeSet
import AugmentedBnf.Grammar.Basic

/-!
# References

The rule names that a body refers to, at any depth of its own groups and options. The bodies of
the rules referred to are not looked into.
-/

namespace AugmentedBnf

/-- A set of rule names, in ascending order of their code points. -/
abbrev NameSet := Std.ExtTreeSet String

mutual

/-- The names an element refers to, from left to right, with repetitions. -/
def Element.references : Element → List String
  | .reference name => [name]
  | .group body | .option body => Alternation.references body
  | .literal _ | .numeric _ | .prose _ => []

def Repetition.references : Repetition → List String
  | ⟨_, element⟩ => element.references

def Concatenation.references : Concatenation → List String
  | [] => []
  | repetition :: rest => repetition.references ++ Concatenation.references rest

def Alternation.references : Alternation → List String
  | [] => []
  | branch :: rest => Concatenation.references branch ++ Alternation.references rest

end

/-- The set of names an element refers to. -/
def Element.dependencies (element : Element) : NameSet := .ofList element.references

def Repetition.dependencies (repetition : Repetition) : NameSet := .ofList repetition.references

def Concatenation.dependencies (branch : Concatenation) : NameSet :=
  .ofList (Concatenation.references branch)

def Alternation.dependencies (body : Alternation) : NameSet :=
  .ofList (Alternation.references body)

def Rule.dependencies (rule : Rule) : NameSet := Alternation.dependencies rule.body

end AugmentedBnf
