import Mathlib.Data.List.Nodup
import AugmentedBnf.Grammar.Merge
import AugmentedBnf.Proofs.Outcome

/-!
# What merging makes of definitions

Merged rules have distinct names, and whatever extending a rule keeps holds of them if it holds of
the definitions. Rules that have distinct names already are merged to themselves.
-/

namespace AugmentedBnf

lemma Rule.extend?_eq_some {rule later extended : Rule} (h : rule.extend? later = some extended) :
    extended.name = rule.name ∧ extended.body = rule.body ++ later.body := by
  simp only [Rule.extend?] at h
  split at h
  · cases h
  · cases h
    exact ⟨rfl, rfl⟩
  · cases h
    exact ⟨rfl, rfl⟩

lemma Rule.define?_of_notMem {rules : List Rule} {rule : Rule}
    (h : rule.name ∉ rules.map Rule.name) : Rule.define? rules rule = some (rules ++ [rule]) := by
  induction rules with
  | nil => rfl
  | cons first rules ih =>
    simp only [List.map_cons, List.mem_cons, not_or] at h
    rw [Rule.define?, if_neg (Ne.symm h.1), ih h.2]
    rfl

/-- The names after one more definition. -/
lemma Rule.map_name_define? {rules defined : List Rule} {rule : Rule}
    (h : Rule.define? rules rule = some defined) :
    defined.map Rule.name =
      if rule.name ∈ rules.map Rule.name then rules.map Rule.name
      else rules.map Rule.name ++ [rule.name] := by
  induction rules generalizing defined with
  | nil =>
    cases h
    rfl
  | cons first rules ih =>
    rw [Rule.define?] at h
    by_cases hname : first.name = rule.name
    · rw [if_pos hname, Option.map_eq_some_iff] at h
      obtain ⟨extended, hextended, rfl⟩ := h
      simp [(Rule.extend?_eq_some hextended).1, hname]
    · rw [if_neg hname, Option.map_eq_some_iff] at h
      obtain ⟨others, hothers, rfl⟩ := h
      rw [List.map_cons, ih hothers]
      by_cases hmem : rule.name ∈ rules.map Rule.name
      · rw [if_pos hmem, List.map_cons, if_pos (List.mem_cons_of_mem _ hmem)]
      · have hnot : rule.name ∉ (first :: rules).map Rule.name := by
          simp only [List.map_cons, List.mem_cons, not_or]
          exact ⟨Ne.symm hname, hmem⟩
        rw [if_neg hmem, if_neg hnot]
        rfl

lemma Rule.nodup_define? {rules defined : List Rule} {rule : Rule}
    (h : Rule.define? rules rule = some defined) (hrules : (rules.map Rule.name).Nodup) :
    (defined.map Rule.name).Nodup := by
  rw [Rule.map_name_define? h]
  split
  · exact hrules
  · rename_i hname
    exact List.nodup_append_comm.mp (List.nodup_cons.mpr ⟨hname, hrules⟩)

section Invariant

variable {p : Rule → Prop}
  (hextend : ∀ rule later extended, p rule → p later → rule.extend? later = some extended →
    p extended)
include hextend

lemma Rule.forall_define? {rules defined : List Rule} {rule : Rule}
    (h : Rule.define? rules rule = some defined) (hrules : ∀ other ∈ rules, p other)
    (hrule : p rule) : ∀ other ∈ defined, p other := by
  induction rules generalizing defined with
  | nil =>
    cases h
    simpa using hrule
  | cons first rules ih =>
    have hfirst := hrules first List.mem_cons_self
    have hothers := fun other hother => hrules other (List.mem_cons_of_mem first hother)
    rw [Rule.define?] at h
    by_cases hname : first.name = rule.name
    · rw [if_pos hname, Option.map_eq_some_iff] at h
      obtain ⟨extended, hextended, rfl⟩ := h
      exact List.forall_mem_cons.mpr ⟨hextend _ _ _ hfirst hrule hextended, hothers⟩
    · rw [if_neg hname, Option.map_eq_some_iff] at h
      obtain ⟨defined, hdefined, rfl⟩ := h
      exact List.forall_mem_cons.mpr ⟨hfirst, ih hdefined hothers⟩

end Invariant

/-! ### All definitions -/

namespace Definition

def addTo (rules : List Rule) (definition : Definition) : Except Definition (List Rule) :=
  match Rule.define? rules definition.rule with
  | some rules => .ok rules
  | none => .error definition

lemma merge_eq_foldlM (definitions : List Definition) :
    merge definitions = definitions.foldlM addTo [] := rfl

lemma addTo_eq_ok {rules defined : List Rule} {definition : Definition} :
    definition.addTo rules = .ok defined ↔ Rule.define? rules definition.rule = some defined := by
  simp only [addTo]
  cases Rule.define? rules definition.rule <;> simp

/-- What each step keeps holds of the result. -/
lemma foldlM_addTo_induction {motive : List Rule → Prop} {definitions : List Definition}
    (hstep : ∀ rules defined, ∀ definition ∈ definitions,
      Rule.define? rules definition.rule = some defined → motive rules → motive defined)
    {rules merged : List Rule} (h : definitions.foldlM addTo rules = .ok merged)
    (hrules : motive rules) : motive merged := by
  induction definitions generalizing rules with
  | nil =>
    cases h
    exact hrules
  | cons definition definitions ih =>
    rw [List.foldlM_cons, bind_eq_ok] at h
    obtain ⟨defined, hdefined, h⟩ := h
    refine ih (fun rules defined other hother => ?_) h ?_
    · exact hstep rules defined other (List.mem_cons_of_mem definition hother)
    · exact hstep rules defined definition List.mem_cons_self (addTo_eq_ok.mp hdefined) hrules

lemma nodup_merge {definitions : List Definition} {rules : List Rule}
    (h : merge definitions = .ok rules) : (rules.map Rule.name).Nodup := by
  rw [merge_eq_foldlM] at h
  exact foldlM_addTo_induction (motive := fun rules => (rules.map Rule.name).Nodup)
    (fun _ _ _ _ hdefined => Rule.nodup_define? hdefined) h List.nodup_nil

lemma forall_merge {p : Rule → Prop}
    (hextend : ∀ rule later extended, p rule → p later → rule.extend? later = some extended →
      p extended)
    {definitions : List Definition} {rules : List Rule} (h : merge definitions = .ok rules)
    (hdefinitions : ∀ definition ∈ definitions, p definition.rule) : ∀ rule ∈ rules, p rule := by
  rw [merge_eq_foldlM] at h
  refine foldlM_addTo_induction (motive := fun rules => ∀ rule ∈ rules, p rule) ?_ h (by simp)
  intro rules defined definition hdefinition hdefined hrules
  exact Rule.forall_define? hextend hdefined hrules (hdefinitions definition hdefinition)

lemma foldlM_addTo_of_nodup {definitions : List Definition} {rules : List Rule}
    (h : (rules.map Rule.name ++ definitions.map fun definition => definition.rule.name).Nodup) :
    definitions.foldlM addTo rules = .ok (rules ++ definitions.map Definition.rule) := by
  -- The rules merged so far keep their names apart from those still to come.
  induction definitions generalizing rules with
  | nil => simp [pure, Except.pure]
  | cons definition definitions ih =>
    have hname : definition.rule.name ∉ rules.map Rule.name := by
      intro hmem
      exact (List.disjoint_of_nodup_append h) hmem (by simp)
    rw [List.foldlM_cons, addTo_eq_ok.mpr (Rule.define?_of_notMem hname)]
    have hnodup : ((rules ++ [definition.rule]).map Rule.name ++
        definitions.map fun definition => definition.rule.name).Nodup := by
      simpa using h
    have hmerged := ih hnodup
    rw [List.append_assoc] at hmerged
    exact hmerged

/-- Rules with distinct names are merged to themselves. -/
lemma merge_of_nodup {definitions : List Definition}
    (h : (definitions.map fun definition => definition.rule.name).Nodup) :
    merge definitions = .ok (definitions.map Definition.rule) := by
  rw [merge_eq_foldlM]
  exact foldlM_addTo_of_nodup h

end Definition

/-- Merging looks at rules only: it gives the same rules for definitions of the same ones, or stops at
definitions that go together. -/
lemma Definition.merge_of_forall₂ {p : Definition → Definition → Prop}
    (hp : ∀ {definition definition'}, p definition definition' →
      definition.rule = definition'.rule) {definitions definitions' : List Definition}
    (h : List.Forall₂ p definitions definitions') :
    (∃ rules, merge definitions = .ok rules ∧ merge definitions' = .ok rules) ∨
      ∃ definition definition', p definition definition' ∧
        merge definitions = .error definition ∧ merge definitions' = .error definition' := by
  simp only [merge]
  generalize ([] : List Rule) = rules
  induction h generalizing rules with
  | nil => exact .inl ⟨rules, rfl, rfl⟩
  | @cons definition definition' _ _ hfirst _ ih =>
    rw [List.foldlM_cons, List.foldlM_cons, hp hfirst]
    cases Rule.define? rules definition'.rule with
    | none => exact .inr ⟨definition, definition', hfirst, rfl, rfl⟩
    | some rules => exact ih rules

end AugmentedBnf
