import Mathlib.Data.List.Forall2
import AugmentedBnf.Expansion
import AugmentedBnf.Proofs.Classification.Fixpoint

/-!
# What a classification looks at

A classification looks at the names of rules and at the names that they refer to. If rules are put in
the place of others that agree with them on these, they are classified like the others, in the same
order.

* `classify_regular_rel`: the regular rules correspond.
* `RegularRules.get?_rel`, `RegularRules.resolve_rel`: what a name stands for among them corresponds.
-/

namespace AugmentedBnf

/-- A relation between rules that have the same name and refer to the same names. -/
structure KeepsNames (R : Rule → Rule → Prop) : Prop where
  name {rule rule' : Rule} (h : R rule rule') : rule.name = rule'.name
  references {rule rule' : Rule} (h : R rule rule') (name : String) :
    name ∈ Alternation.references rule.body ↔ name ∈ Alternation.references rule'.body

/-- Findings of rules in the place of others. -/
structure Findings.Corresponds (R : Rule → Rule → Prop) (found found' : Findings) : Prop where
  regular : List.Forall₂ R found.regular found'.regular
  selfResolvable : List.Forall₂ R found.selfResolvable found'.selfResolvable

variable {R : Rule → Rule → Prop} {rules rules' : List Rule} {rule rule' : Rule}

lemma keepsNames_eq : KeepsNames Eq where
  name h := h ▸ rfl
  references h _ := h ▸ Iff.rfl

lemma KeepsNames.any_name (hR : KeepsNames R) (h : List.Forall₂ R rules rules') (name : String) :
    rules.any (·.name == name) = rules'.any (·.name == name) := by
  induction h with
  | nil => rfl
  | cons hrule _ ih => rw [List.any_cons, List.any_cons, hR.name hrule, ih]

namespace Findings.Corresponds

variable {found found' : Findings}

lemma satisfies_eq (hR : KeepsNames R) (h : Corresponds R found found') :
    found.satisfies = found'.satisfies := by
  funext name
  simp only [satisfies, hR.any_name h.regular, hR.any_name h.selfResolvable]

/-- The same is said of rules that correspond. -/
lemma judge?_eq (hR : KeepsNames R) (h : Corresponds R found found') (hrule : R rule rule') :
    found.judge? rule = found'.judge? rule' := by
  have hall : ∀ p : String → Bool, (Alternation.references rule.body).all p =
      (Alternation.references rule'.body).all p := by
    intro p
    rw [Bool.eq_iff_iff]
    simp only [List.all_eq_true, hR.references hrule]
  have hcontains : ∀ name, (Alternation.references rule.body).contains name =
      (Alternation.references rule'.body).contains name := by
    intro name
    rw [Bool.eq_iff_iff]
    simp only [List.contains_iff_mem, hR.references hrule]
  simp only [judge?, hall, hcontains, hR.name hrule, h.satisfies_eq hR]

lemma add (h : Corresponds R found found') (hrule : R rule rule') (verdict : Verdict) :
    Corresponds R (found.add rule verdict) (found'.add rule' verdict) := by
  cases verdict with
  | regular =>
    exact ⟨List.rel_append h.regular (.cons hrule .nil), h.selfResolvable⟩
  | selfResolvable =>
    exact ⟨h.regular, List.rel_append h.selfResolvable (.cons hrule .nil)⟩

/-- A pass finds rules that correspond, and leaves rules that do. -/
lemma pass (hR : KeepsNames R) (h : Corresponds R found found')
    (hrules : List.Forall₂ R rules rules') :
    Corresponds R (found.pass rules).1 (found'.pass rules').1 ∧
      List.Forall₂ R (found.pass rules).2 (found'.pass rules').2 := by
  induction hrules with
  | nil => exact ⟨h, .nil⟩
  | @cons rule rule' rest rest' hrule hrest ih =>
    obtain ⟨hfound, hleft⟩ := ih
    have hsame := hfound.judge?_eq hR hrule
    rw [pass_cons, pass_cons]
    cases hjudge : (found.pass rest).1.judge? rule with
    | none =>
      rw [hjudge] at hsame
      rw [consider_of_judge?_eq_none hjudge, consider_of_judge?_eq_none hsame.symm]
      exact ⟨hfound, .cons hrule hleft⟩
    | some verdict =>
      rw [hjudge] at hsame
      rw [consider_of_judge? hjudge, consider_of_judge? hsame.symm]
      exact ⟨hfound.add hrule verdict, hleft⟩

lemma passes (hR : KeepsNames R) (h : Corresponds R found found')
    (hrules : List.Forall₂ R rules rules') (turns : Nat) :
    Corresponds R (Findings.passes turns found rules).1
      (Findings.passes turns found' rules').1 := by
  induction turns generalizing found found' rules rules' with
  | zero => exact h
  | succ turns ih =>
    obtain ⟨hfound, hleft⟩ := pass hR h hrules
    -- Passes end by the number of rules left, which is the same for both lists.
    rw [Findings.passes, Findings.passes, hleft.length_eq, hrules.length_eq]
    split_ifs
    · exact hfound
    · exact ih hfound hleft

end Findings.Corresponds

/-- Regular rules are found in the same order. -/
lemma classify_regular_rel (hR : KeepsNames R) (h : List.Forall₂ R rules rules') :
    List.Forall₂ R (classify rules).regular.rules (classify rules').regular.rules := by
  have hempty : Findings.Corresponds R ⟨[], []⟩ ⟨[], []⟩ := ⟨.nil, .nil⟩
  have hpasses := Findings.Corresponds.passes hR hempty h rules.length
  rw [classify, classify, ← h.length_eq]
  exact hpasses.regular

/-- A name stands for rules that correspond, or for none in either list. -/
lemma RegularRules.get?_rel {regular regular' : RegularRules} (hR : KeepsNames R)
    (h : List.Forall₂ R regular.rules regular'.rules) (name : String) :
    Option.Rel R (regular.get? name) (regular'.get? name) := by
  have hreverse := List.forall₂_reverse_iff.mpr h
  rw [get?, get?]
  generalize regular.rules.reverse = left, regular'.rules.reverse = left' at hreverse ⊢
  induction hreverse with
  | nil => exact .none
  | cons hrule _ ih =>
    rw [List.find?_cons, List.find?_cons, hR.name hrule]
    split
    · exact .some hrule
    · exact ih

/-- A name resolves to rules that correspond, or has the same fault among either. -/
lemma RegularRules.resolve_rel {regular regular' : RegularRules} (hR : KeepsNames R)
    (hmarker : ∀ {rule rule' : Rule}, R rule rule' → rule.marker = rule'.marker)
    (h : List.Forall₂ R regular.rules regular'.rules) (rule name : String) :
    (∃ found found', regular.resolve rule name = .ok found ∧
      regular'.resolve rule name = .ok found' ∧ R found found') ∨
    ∃ error, regular.resolve rule name = .error error ∧
      regular'.resolve rule name = .error error := by
  have hget := get?_rel hR h name
  simp only [resolve]
  generalize regular.get? name = found?, regular'.get? name = found?' at hget ⊢
  cases hget with
  | none => exact .inr ⟨_, rfl, rfl⟩
  | @some found found' hrel =>
    simp only [← hmarker hrel]
    cases found.marker with
    | incremental => exact .inr ⟨_, rfl, rfl⟩
    | basic => exact .inl ⟨found, found', rfl, rfl, hrel⟩

end AugmentedBnf
