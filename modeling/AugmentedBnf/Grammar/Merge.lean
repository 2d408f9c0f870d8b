import AugmentedBnf.Grammar.Equality

/-!
# Merging definitions

A document may define a rule in several places: once with `=`, and any number of times with `=/`.
Merging gathers the branches of each name into one rule.
-/

namespace AugmentedBnf

/-- A rule as a document defines it, and the offset of its name there. -/
structure Definition where
  rule : Rule
  offset : Nat
deriving DecidableEq

/-- A rule with the branches of a later definition of its name behind its own. Only one of both
may be a basic definition, and it makes the whole rule one. -/
def Rule.extend? (rule later : Rule) : Option Rule :=
  match rule.marker, later.marker with
  | .basic, .basic => none
  | .incremental, .incremental => some ⟨rule.name, .incremental, rule.body ++ later.body⟩
  | _, _ => some ⟨rule.name, .basic, rule.body ++ later.body⟩

/-- Rules with one more definition: it extends the rule of its name, or else comes last. -/
def Rule.define? (rules : List Rule) (rule : Rule) : Option (List Rule) :=
  match rules with
  | [] => some [rule]
  | first :: rest =>
    if first.name = rule.name then (first.extend? rule).map (· :: rest)
    else (Rule.define? rest rule).map (first :: ·)

/-- The rules of definitions, in the order in which their names first occur, or else the first
definition that defines a rule once more. -/
def Definition.merge (definitions : List Definition) : Except Definition (List Rule) :=
  definitions.foldlM
    (fun rules definition =>
      match Rule.define? rules definition.rule with
      | some rules => .ok rules
      | none => .error definition)
    []

end AugmentedBnf
