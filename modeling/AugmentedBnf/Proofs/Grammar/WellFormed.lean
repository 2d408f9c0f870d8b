import AugmentedBnf.Proofs.Reader.Document
import AugmentedBnf.Proofs.Text.Ascii

/-!
# Well-formed grammars

Values of a grammar may say more than the notation can write: a body without branches, a name with
a space in it, a quotation mark in a quoted text. What is derived is free of this.
-/

namespace AugmentedBnf

/-- A letter, and then letters, digits and hyphens. -/
def IsRuleName (name : String) : Prop :=
  ∃ first tail, name.toList = first :: tail ∧ first.isAlpha ∧
    ∀ char ∈ tail, char.isAlphanum ∨ char = '-'

/-- A bare count sets no maximum. -/
def Repeat.WellFormed (bounds : Repeat) : Prop := bounds.starred = false → bounds.max = none

/-- A range has two bounds, and a sequence has a member. -/
def Numeric.WellFormed (value : Numeric) : Prop :=
  if value.ranged then value.values.length = 2 else 1 ≤ value.values.length

mutual

def Element.WellFormed : Element → Prop
  | .reference name => IsRuleName name
  | .group body => Alternation.WellFormed body
  | .option body => Alternation.WellFormed body
  | .literal octets => ∀ octet ∈ octets, octet.isQuotable
  | .numeric value => value.WellFormed
  | .prose octets => ∀ octet ∈ octets, octet.isProse

def Repetition.WellFormed : Repetition → Prop
  | ⟨some bounds, element⟩ => bounds.WellFormed ∧ Element.WellFormed element
  | ⟨none, element⟩ => Element.WellFormed element

/-- A concatenation that the notation can write, which is not empty. -/
def Concatenation.WellFormed : Concatenation → Prop
  | [] => False
  | [repetition] => Repetition.WellFormed repetition
  | repetition :: others => Repetition.WellFormed repetition ∧ Concatenation.WellFormed others

/-- An alternation that the notation can write, which is not empty. -/
def Alternation.WellFormed : Alternation → Prop
  | [] => False
  | [branch] => Concatenation.WellFormed branch
  | branch :: others => Concatenation.WellFormed branch ∧ Alternation.WellFormed others

end

lemma Concatenation.wellFormed_cons {repetition : Repetition} {others : Concatenation}
    (hothers : others ≠ []) :
    Concatenation.WellFormed (repetition :: others) ↔
      repetition.WellFormed ∧ others.WellFormed := by
  cases others with
  | nil => contradiction
  | cons => simp only [Concatenation.WellFormed]

lemma Alternation.wellFormed_cons {branch : Concatenation} {others : Alternation}
    (hothers : others ≠ []) :
    Alternation.WellFormed (branch :: others) ↔ branch.WellFormed ∧ others.WellFormed := by
  cases others with
  | nil => contradiction
  | cons => simp only [Alternation.WellFormed]

lemma Alternation.wellFormed_iff {alternation : Alternation} :
    alternation.WellFormed ↔ alternation ≠ [] ∧ ∀ branch ∈ alternation, branch.WellFormed := by
  induction alternation with
  | nil => simp [Alternation.WellFormed]
  | cons branch others ih =>
    cases others with
    | nil => simp [Alternation.WellFormed]
    | cons second others =>
      rw [Alternation.wellFormed_cons (List.cons_ne_nil second others), ih]
      simp

/-! ### What is derived -/

lemma isRuleName_of_nameDerives {name : String} {input rest : List Octet}
    (h : NameDerives name input rest) : IsRuleName name := by
  have halpha : ∀ octet : Octet, octet.isAlpha → octet.toChar.isAlpha := by
    rw [Octet.forall_iff]
    decide +kernel
  have htail : ∀ octet : Octet, octet.isNameTail →
      octet.toChar.isAlphanum ∨ octet.toChar = '-' := by
    rw [Octet.forall_iff]
    decide +kernel
  cases h with
  | @intro first tail _ hfirst hrest =>
    refine ⟨first.toChar, tail.map Octet.toChar, String.toList_ofList, halpha first hfirst, ?_⟩
    intro char hchar
    obtain ⟨octet, hoctet, rfl⟩ := List.mem_map.mp hchar
    exact htail octet (hrest octet hoctet)

lemma Repeat.Derives.wellFormed {bounds : Repeat} {input rest : List Octet}
    (h : bounds.Derives input rest) : bounds.WellFormed := by
  cases h with
  | count =>
    intro _
    rfl
  | between =>
    intro hstarred
    cases hstarred

lemma Numeric.Derives.wellFormed {value : Numeric} {input rest : List Octet}
    (h : value.Derives input rest) : value.WellFormed := by
  cases h with
  | sequence => simp [Numeric.WellFormed]
  | range => simp [Numeric.WellFormed]

lemma Concatenation.Derives.ne_nil {concatenation : Concatenation} {input rest : List Octet}
    (h : concatenation.Derives input rest) : concatenation ≠ [] := by
  cases h <;> exact List.cons_ne_nil _ _

lemma Alternation.Derives.ne_nil {alternation : Alternation} {input rest : List Octet}
    (h : alternation.Derives input rest) : alternation ≠ [] := by
  cases h <;> exact List.cons_ne_nil _ _

mutual

lemma Element.Derives.wellFormed {element : Element} {input rest : List Octet} :
    element.Derives input rest → element.WellFormed
  | .reference hname => by
    simp only [Element.WellFormed]
    exact isRuleName_of_nameDerives hname
  | .group _ hbody _ => by
    simp only [Element.WellFormed]
    exact Alternation.Derives.wellFormed hbody
  | .option _ hbody _ => by
    simp only [Element.WellFormed]
    exact Alternation.Derives.wellFormed hbody
  | .literal _ hoctets => by
    simp only [Element.WellFormed]
    exact hoctets
  | .numeric hvalue => by
    simp only [Element.WellFormed]
    exact hvalue.wellFormed
  | .prose _ hoctets => by
    simp only [Element.WellFormed]
    exact hoctets

lemma Repetition.Derives.wellFormed {repetition : Repetition} {input rest : List Octet} :
    repetition.Derives input rest → repetition.WellFormed
  | .once helement => by
    simp only [Repetition.WellFormed]
    exact Element.Derives.wellFormed helement
  | .repeated hbounds helement => by
    simp only [Repetition.WellFormed]
    exact ⟨hbounds.wellFormed, Element.Derives.wellFormed helement⟩

lemma Concatenation.Derives.wellFormed {concatenation : Concatenation} {input rest : List Octet} :
    concatenation.Derives input rest → concatenation.WellFormed
  | .single hrepetition => by
    simp only [Concatenation.WellFormed]
    exact Repetition.Derives.wellFormed hrepetition
  | .cons hrepetition _ hothers =>
    (Concatenation.wellFormed_cons hothers.ne_nil).mpr
      ⟨Repetition.Derives.wellFormed hrepetition, Concatenation.Derives.wellFormed hothers⟩

lemma Alternation.Derives.wellFormed {alternation : Alternation} {input rest : List Octet} :
    alternation.Derives input rest → alternation.WellFormed
  | .single hbranch => by
    simp only [Alternation.WellFormed]
    exact Concatenation.Derives.wellFormed hbranch
  | .cons hbranch _ _ hothers =>
    (Alternation.wellFormed_cons hothers.ne_nil).mpr
      ⟨Concatenation.Derives.wellFormed hbranch, Alternation.Derives.wellFormed hothers⟩

end

/-! ### Grammars -/

structure Rule.WellFormed (rule : Rule) : Prop where
  name : IsRuleName rule.name
  body : rule.body.WellFormed

/-- A grammar that the notation can write: its rules can be written, and no two of them have one
name. -/
structure Grammar.WellFormed (grammar : Grammar) : Prop where
  distinct : (grammar.rules.map Rule.name).Nodup
  rules : ∀ rule ∈ grammar.rules, rule.WellFormed

lemma Rule.Derives.wellFormed {rule : Rule} {input rest : List Octet}
    (h : rule.Derives input rest) : rule.WellFormed := by
  cases h with
  | intro hname _ hbody =>
    obtain ⟨stop, hbody, -⟩ := hbody
    exact ⟨isRuleName_of_nameDerives hname, hbody.wellFormed⟩

lemma DefinitionsDerive.wellFormed {length : Nat} {definitions : List Definition}
    {input : List Octet} (h : DefinitionsDerive length definitions input) :
    ∀ definition ∈ definitions, definition.rule.WellFormed := by
  induction h with
  | nil => simp
  | rule hrule _ ih =>
    intro definition hdefinition
    obtain rfl | hdefinition := List.mem_cons.mp hdefinition
    · exact hrule.wellFormed
    · exact ih definition hdefinition
  | emptyLine _ _ _ ih => exact ih

end AugmentedBnf
