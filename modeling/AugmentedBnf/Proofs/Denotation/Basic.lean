import Mathlib.Data.List.Nodup
import Mathlib.Tactic.Lemma
import AugmentedBnf.Expansion

/-!
# Denotations

The words that a rule body describes among rules, said without patterns and automata. References
stand for the bodies of the rules they name, however deep.
-/

namespace AugmentedBnf

/-- The numbers of copies that bounds allow. With a `*`, bounds of zero allow for one copy. -/
def Repeat.Allows (bounds : Repeat) (mode : CountMode) (count : Nat) : Prop :=
  bounds.min.toNat ≤ count ∧ ∀ max ∈ bounds.maximum mode,
    count ≤ if bounds.starred ∧ bounds.min = 0 ∧ max = 0 then 1 else max.toNat

/-- The words of a numeric value: its members one after the other, or any octet of a range. -/
def Numeric.Denotes (value : Numeric) (mode : RangeMode) (word : List Octet) : Prop :=
  match value.ranged, mode, value.values with
  | true, .inclusive, [lower, upper] =>
    ∃ octet, word = [octet] ∧ lower.toNat ≤ octet.toNat ∧ octet.toNat ≤ upper.toNat
  | _, _, values => word.map UInt8.toNat = values.map UInt32.toNat

section

variable (rules : List Rule) (options : Options)

mutual

inductive Element.Denotes : Element → List Octet → Prop
  | reference {rule word} (hrule : rule ∈ rules) (hbody : Alternation.Denotes rule.body word) :
      Element.Denotes (.reference rule.name) word
  | group {body word} (hbody : Alternation.Denotes body word) : Element.Denotes (.group body) word
  | absent {body} : Element.Denotes (.option body) []
  | present {body word} (hbody : Alternation.Denotes body word) :
      Element.Denotes (.option body) word
  | literal {octets word} (hcase : word.map Octet.toLower = octets.map Octet.toLower) :
      Element.Denotes (.literal octets) word
  | prose {octets word} (hcase : word.map Octet.toLower = octets.map Octet.toLower) :
      Element.Denotes (.prose octets) word
  | numeric {value word} (hvalue : value.Denotes options.rangeMode word) :
      Element.Denotes (.numeric value) word

/-- A number of copies of an element, one after the other, describe a word. -/
inductive Element.DenotesTimes : Nat → Element → List Octet → Prop
  | zero {element} : Element.DenotesTimes 0 element []
  | succ {count element first rest} (hfirst : Element.Denotes element first)
      (hrest : Element.DenotesTimes count element rest) :
      Element.DenotesTimes (count + 1) element (first ++ rest)

inductive Repetition.Denotes : Repetition → List Octet → Prop
  | once {element word} (helement : Element.Denotes element word) :
      Repetition.Denotes ⟨none, element⟩ word
  | repeated {bounds count element word} (hcount : bounds.Allows options.countMode count)
      (hcopies : Element.DenotesTimes count element word) :
      Repetition.Denotes ⟨some bounds, element⟩ word

inductive Concatenation.Denotes : Concatenation → List Octet → Prop
  | nil : Concatenation.Denotes [] []
  | cons {repetition branch first rest} (hfirst : Repetition.Denotes repetition first)
      (hrest : Concatenation.Denotes branch rest) :
      Concatenation.Denotes (repetition :: branch) (first ++ rest)

inductive Alternation.Denotes : Alternation → List Octet → Prop
  | branch {body branch word} (hmem : branch ∈ body) (hbranch : Concatenation.Denotes branch word) :
      Alternation.Denotes body word

end

end

variable {rules : List Rule} {options : Options} {word : List Octet}

/-! ### Taking denotations apart -/

/-- Where names are defined once, there is one rule of a name. -/
lemma exists_mem_name_iff (hnames : (rules.map Rule.name).Nodup) {rule : Rule} (hrule : rule ∈ rules)
    {P : Rule → Prop} : (∃ other ∈ rules, other.name = rule.name ∧ P other) ↔ P rule := by
  constructor
  · rintro ⟨other, hother, hname, h⟩
    obtain rfl := List.inj_on_of_nodup_map hnames hother hrule hname
    exact h
  · intro h
    exact ⟨rule, hrule, rfl, h⟩

lemma Element.denotes_reference {name : String} :
    Element.Denotes rules options (.reference name) word ↔
      ∃ rule ∈ rules, rule.name = name ∧ Alternation.Denotes rules options rule.body word := by
  constructor
  · intro h
    cases h with
    | reference hrule hbody => exact ⟨_, hrule, rfl, hbody⟩
  · rintro ⟨rule, hrule, rfl, hbody⟩
    exact .reference hrule hbody

lemma Element.denotes_group {body : Alternation} :
    Element.Denotes rules options (.group body) word ↔
      Alternation.Denotes rules options body word := by
  constructor
  · intro h
    cases h with
    | group hbody => exact hbody
  · exact .group

lemma Element.denotes_option {body : Alternation} :
    Element.Denotes rules options (.option body) word ↔
      word = [] ∨ Alternation.Denotes rules options body word := by
  constructor
  · intro h
    cases h with
    | absent => exact .inl rfl
    | present hbody => exact .inr hbody
  · rintro (rfl | hbody)
    · exact .absent
    · exact .present hbody

lemma Element.denotes_literal {octets : List Octet} :
    Element.Denotes rules options (.literal octets) word ↔
      word.map Octet.toLower = octets.map Octet.toLower := by
  constructor
  · intro h
    cases h with
    | literal hcase => exact hcase
  · exact .literal

lemma Element.denotes_prose {octets : List Octet} :
    Element.Denotes rules options (.prose octets) word ↔
      word.map Octet.toLower = octets.map Octet.toLower := by
  constructor
  · intro h
    cases h with
    | prose hcase => exact hcase
  · exact .prose

lemma Element.denotes_numeric {value : Numeric} :
    Element.Denotes rules options (.numeric value) word ↔ value.Denotes options.rangeMode word := by
  constructor
  · intro h
    cases h with
    | numeric hvalue => exact hvalue
  · exact .numeric

lemma Repetition.denotes_once {element : Element} :
    Repetition.Denotes rules options ⟨none, element⟩ word ↔
      Element.Denotes rules options element word := by
  constructor
  · intro h
    cases h with
    | once helement => exact helement
  · exact .once

lemma Repetition.denotes_repeated {bounds : Repeat} {element : Element} :
    Repetition.Denotes rules options ⟨some bounds, element⟩ word ↔
      ∃ count, bounds.Allows options.countMode count ∧
        Element.DenotesTimes rules options count element word := by
  constructor
  · intro h
    cases h with
    | repeated hcount hcopies => exact ⟨_, hcount, hcopies⟩
  · rintro ⟨count, hcount, hcopies⟩
    exact .repeated hcount hcopies

lemma Concatenation.denotes_nil : Concatenation.Denotes rules options [] word ↔ word = [] := by
  constructor
  · intro h
    cases h
    rfl
  · rintro rfl
    exact .nil

lemma Concatenation.denotes_cons {repetition : Repetition} {branch : Concatenation} :
    Concatenation.Denotes rules options (repetition :: branch) word ↔
      ∃ first, Repetition.Denotes rules options repetition first ∧
        ∃ rest, Concatenation.Denotes rules options branch rest ∧ first ++ rest = word := by
  constructor
  · intro h
    cases h with
    | cons hfirst hrest => exact ⟨_, hfirst, _, hrest, rfl⟩
  · rintro ⟨first, hfirst, rest, hrest, rfl⟩
    exact .cons hfirst hrest

lemma Concatenation.denotes_singleton {repetition : Repetition} :
    Concatenation.Denotes rules options [repetition] word ↔
      Repetition.Denotes rules options repetition word := by
  simp [denotes_cons, denotes_nil]

lemma Alternation.denotes_nil : ¬ Alternation.Denotes rules options [] word := by
  intro h
  cases h with
  | branch hmem => cases hmem

lemma Alternation.denotes_cons {branch : Concatenation} {rest : Alternation} :
    Alternation.Denotes rules options (branch :: rest) word ↔
      Concatenation.Denotes rules options branch word ∨
        Alternation.Denotes rules options rest word := by
  constructor
  · intro h
    cases h with
    | branch hmem hbranch =>
      rcases List.mem_cons.mp hmem with rfl | hmem
      · exact .inl hbranch
      · exact .inr (.branch hmem hbranch)
  · rintro (hbranch | h)
    · exact .branch List.mem_cons_self hbranch
    · cases h with
      | branch hmem hbranch => exact .branch (List.mem_cons_of_mem _ hmem) hbranch

lemma Alternation.denotes_singleton {branch : Concatenation} :
    Alternation.Denotes rules options [branch] word ↔
      Concatenation.Denotes rules options branch word := by
  simp [denotes_cons, denotes_nil]

end AugmentedBnf
