import Std.Data.HashMap.Lemmas
import AugmentedBnf.Proofs.Grammar.Merge
import AugmentedBnf.Reader.Document

/-!
# Rules with an index of their names

An index tells the place of every name among rules that are found one after the other. Definitions are
gathered along one: a definition goes to the rule at the place of its name, and nothing else is looked
at. This gives what going through the rules gives.

* `RuleIndex.define?_cases`: the step, which keeps the place of every name the first one.
* `RuleIndex.merge_cases`: the run, whose errors are those of documents.
-/

namespace AugmentedBnf

/-- Rules one after the other, and the place of every name among them. -/
structure RuleIndex where
  rules : List Rule
  places : Std.HashMap String Nat
  place_lt : ∀ {name : String} {place : Nat}, places[name]? = some place → place < rules.length

namespace RuleIndex

def empty : RuleIndex := ⟨[], ∅, by simp⟩

/-- One more rule, which takes over its name. -/
def push (index : RuleIndex) (rule : Rule) : RuleIndex where
  rules := index.rules ++ [rule]
  places := index.places.insert rule.name index.rules.length
  place_lt {name place} h := by
    rw [Std.HashMap.getElem?_insert] at h
    rw [List.length_append, List.length_singleton]
    split at h
    · obtain rfl := Option.some.inj h
      exact Nat.lt_add_one _
    · exact Nat.lt_add_right 1 (index.place_lt h)

def set (index : RuleIndex) (place : Nat) (rule : Rule) : RuleIndex where
  rules := index.rules.set place rule
  places := index.places
  place_lt h := by
    rw [List.length_set]
    exact index.place_lt h

/-- One more definition: it extends the rule at the place of its name, or else comes last. -/
def define? (index : RuleIndex) (rule : Rule) : Option RuleIndex :=
  match h : index.places[rule.name]? with
  | some place =>
    ((index.rules.get ⟨place, index.place_lt h⟩).extend? rule).map (index.set place)
  | none => some (index.push rule)

/-- One step of merging. The error is the one that the document is refused with. -/
def addTo (document : List Octet) (index : RuleIndex) (definition : Definition) :
    Except ReadError RuleIndex :=
  match index.define? definition.rule with
  | some index => .ok index
  | none => .error (.collision definition.rule.name (Position.locate document definition.offset))

/-- The definitions of a document, gathered along an index. -/
def merge (document : List Octet) (definitions : List Definition) : Except ReadError RuleIndex :=
  definitions.foldlM (addTo document) empty

/-- The place of a name is that of its first rule. -/
def PlacesFirst (index : RuleIndex) : Prop :=
  ∀ name, index.places[name]? = (index.rules.map Rule.name).idxOf? name

variable {index : RuleIndex} {rule : Rule}

lemma placesFirst_empty : empty.PlacesFirst := fun name => by simp [empty]

lemma placesFirst_push (h : index.PlacesFirst) (hname : rule.name ∉ index.rules.map Rule.name) :
    (index.push rule).PlacesFirst := by
  intro name
  simp only [push, Std.HashMap.getElem?_insert, List.map_append, List.map_singleton, List.idxOf?,
    List.findIdx?_append, List.findIdx?_singleton]
  by_cases heq : rule.name = name
  · subst heq
    have hnone : (index.rules.map Rule.name).findIdx? (· == rule.name) = none :=
      List.idxOf?_eq_none_iff.mpr hname
    simp [hnone]
  · simp [heq, h name, List.idxOf?]

end RuleIndex

/-- Only the first rule of the name is extended. -/
lemma Rule.define?_of_idxOf? {rules : List Rule} {rule : Rule} {place : Nat}
    (h : (rules.map Rule.name).idxOf? rule.name = some place) (hlt : place < rules.length) :
    Rule.define? rules rule = ((rules.get ⟨place, hlt⟩).extend? rule).map (rules.set place) := by
  induction rules generalizing place with
  | nil => simp at h
  | cons first rules ih =>
    rw [List.map_cons, List.idxOf?_cons] at h
    by_cases hname : first.name = rule.name
    · rw [if_pos (beq_iff_eq.mpr hname)] at h
      obtain rfl := Option.some.inj h
      rw [Rule.define?, if_pos hname]
      rfl
    · rw [if_neg (mt beq_iff_eq.mp hname), Option.map_eq_some_iff] at h
      obtain ⟨place, hplace, rfl⟩ := h
      rw [Rule.define?, if_neg hname, ih hplace (Nat.lt_of_succ_lt_succ hlt), Option.map_map]
      rfl

namespace RuleIndex

variable {index : RuleIndex} {rule : Rule}

/-- One more definition makes the rules it would make without an index, or none. -/
lemma define?_cases (h : index.PlacesFirst) (rule : Rule) :
    (∃ defined, index.define? rule = some defined ∧ defined.PlacesFirst ∧
      Rule.define? index.rules rule = some defined.rules) ∨
    index.define? rule = none ∧ Rule.define? index.rules rule = none := by
  have hfirst := h rule.name
  unfold define?
  split
  · next place hplace =>
    have hlist := Rule.define?_of_idxOf? (hfirst.symm.trans hplace) (index.place_lt hplace)
    cases hextended : (index.rules.get ⟨place, index.place_lt hplace⟩).extend? rule with
    | none =>
      rw [hextended] at hlist
      exact .inr ⟨rfl, hlist⟩
    | some extended =>
      rw [hextended] at hlist
      refine .inl ⟨index.set place extended, rfl, fun name => ?_, hlist⟩
      -- The rule keeps its name, so that all names stay where they are.
      have hmem : rule.name ∈ index.rules.map Rule.name := by
        by_contra hnone
        rw [hplace, List.idxOf?_eq_none_iff.mpr hnone] at hfirst
        cases hfirst
      have hnames := Rule.map_name_define? hlist
      rw [if_pos hmem] at hnames
      exact (h name).trans (congrArg (List.idxOf? name) hnames.symm)
  · next hplace =>
    have hnone : rule.name ∉ index.rules.map Rule.name :=
      List.idxOf?_eq_none_iff.mp (hfirst.symm.trans hplace)
    exact .inl ⟨_, rfl, placesFirst_push h hnone, Rule.define?_of_notMem hnone⟩

/-- Merging along an index makes the same rules as merging, or stops at the same definition. -/
lemma merge_cases (document : List Octet) (definitions : List Definition) :
    (∃ index, merge document definitions = .ok index ∧
      Definition.merge definitions = .ok index.rules) ∨
    ∃ definition, merge document definitions =
        .error (.collision definition.rule.name (Position.locate document definition.offset)) ∧
      Definition.merge definitions = .error definition := by
  have hrun : ∀ index : RuleIndex, index.PlacesFirst →
      (∃ defined, definitions.foldlM (addTo document) index = .ok defined ∧
        definitions.foldlM Definition.addTo index.rules = .ok defined.rules) ∨
      ∃ definition, definitions.foldlM (addTo document) index =
          .error (.collision definition.rule.name (Position.locate document definition.offset)) ∧
        definitions.foldlM Definition.addTo index.rules = .error definition := by
    induction definitions with
    | nil => exact fun index _ => .inl ⟨index, rfl, rfl⟩
    | cons definition definitions ih =>
      intro index h
      rw [List.foldlM_cons, List.foldlM_cons, addTo, Definition.addTo]
      obtain ⟨defined, hdefined, hfirst, hlist⟩ | ⟨hdefined, hlist⟩ :=
        define?_cases h definition.rule
      · rw [hdefined, hlist]
        exact ih defined hfirst
      · rw [hdefined, hlist]
        exact .inr ⟨definition, rfl, rfl⟩
  exact hrun empty placesFirst_empty

end RuleIndex

end AugmentedBnf
