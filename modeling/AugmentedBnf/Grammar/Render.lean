import AugmentedBnf.Grammar.Basic
import AugmentedBnf.Text.Utf8

/-!
# Rendering grammars

The written form of a grammar, with one rule a line. Branches are set apart by ` / `, repetitions
by a space, and what stands in brackets by a space on either side. Literals and prose that are not
UTF-8 are shown with replacement characters.
-/

namespace AugmentedBnf

/-- The written form of repeat bounds. A minimum of zero is left out before a `*`. -/
def Repeat.render (bounds : Repeat) : String :=
  if bounds.starred then
    (if bounds.min = 0 then "" else numeral bounds.min) ++ "*" ++
      (match bounds.max with
        | some max => numeral max
        | none => "")
  else numeral bounds.min
where
  numeral (value : UInt32) : String := Radix.decimal.numeral value.toNat

/-- The written form of a numeric value. A range has a hyphen between its bounds, a sequence a
full stop between its members. -/
def Numeric.render (value : Numeric) : String :=
  let separator := if value.ranged then "-" else "."
  let numerals := value.values.map fun number => value.radix.numeral number.toNat
  "%" ++ value.radix.letter.toChar.toString ++ String.intercalate separator numerals

mutual

def Element.render : Element → String
  | .reference name => name
  | .group body => "( " ++ Alternation.render body ++ " )"
  | .option body => "[ " ++ Alternation.render body ++ " ]"
  | .literal octets => "\"" ++ Utf8.decode octets ++ "\""
  | .numeric value => value.render
  | .prose octets => "<" ++ Utf8.decode octets ++ ">"

def Repetition.render : Repetition → String
  | ⟨some bounds, element⟩ => bounds.render ++ element.render
  | ⟨none, element⟩ => element.render

def Concatenation.render : Concatenation → String
  | [] => ""
  | [repetition] => repetition.render
  | repetition :: rest => repetition.render ++ " " ++ Concatenation.render rest

def Alternation.render : Alternation → String
  | [] => ""
  | [branch] => Concatenation.render branch
  | branch :: rest => Concatenation.render branch ++ " / " ++ Alternation.render rest

end

def Marker.render : Marker → String
  | .basic => "="
  | .incremental => "=/"

/-- The written form of a rule, without the end of its line. -/
def Rule.render (rule : Rule) : String :=
  rule.name ++ " " ++ rule.marker.render ++ " " ++ rule.body.render

/-- Rules, one on each line. -/
def Rule.renderLines (rules : List Rule) : String :=
  String.join (rules.map fun rule => rule.render ++ "\n")

def Grammar.render (grammar : Grammar) : String := Rule.renderLines grammar.rules

end AugmentedBnf
