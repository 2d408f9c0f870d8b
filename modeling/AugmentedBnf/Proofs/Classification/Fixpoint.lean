import AugmentedBnf.Proofs.Classification.Partition

/-!
# What the passes find

A rule is found as soon as the other rules it refers to are. The names found are therefore the
least set of names that is closed under this rule: whatever is kept by a single finding holds of all
rules found, and of every rule left there is a name that it waits for.

* `classify_induction`: induction over the names found, in whatever order they are.
* `classify_regular_eq_append`: a regular rule refers to earlier ones and to self-resolvable ones.
* `exists_missing_of_unresolved`: an unresolved rule refers to another name that is not found.
-/

namespace AugmentedBnf

lemma Rule.mem_dependencies {rule : Rule} {name : String} :
    name ∈ rule.dependencies ↔ name ∈ Alternation.references rule.body := by
  simp [dependencies, Alternation.dependencies]

namespace Findings

variable {found : Findings} {rule : Rule} {verdict : Verdict} {name : String}
  {left : List Rule} {turns : Nat}

lemma satisfies_iff :
    found.satisfies name ↔ ∃ rule ∈ found.regular ++ found.selfResolvable, rule.name = name := by
  simp [satisfies, or_and_right, exists_or]

/-- A finding makes its name a name found. -/
lemma satisfies_add :
    (found.add rule verdict).satisfies name ↔ found.satisfies name ∨ name = rule.name := by
  simp only [satisfies_iff, List.mem_append]
  cases verdict with
  | regular => grind [add]
  | selfResolvable => grind [add]

lemma judge?_eq_regular :
    found.judge? rule = some .regular ↔ ∀ name ∈ rule.dependencies, found.satisfies name := by
  simp only [judge?, Rule.mem_dependencies]
  split_ifs with hall hself <;> simpa using hall

lemma mem_dependencies_of_judge? (h : found.judge? rule = some .selfResolvable) :
    rule.name ∈ rule.dependencies := by
  rw [Rule.mem_dependencies]
  by_contra hself
  simp only [judge?] at h
  split_ifs at h <;> simp_all

/-- Nothing can be said of a rule exactly if it waits for another name. -/
lemma judge?_eq_none :
    found.judge? rule = none ↔
      ∃ name ∈ rule.dependencies, name ≠ rule.name ∧ ¬ found.satisfies name := by
  simp only [judge?, Rule.mem_dependencies]
  split_ifs with hall hself
  · simp_all
  · simp only [Bool.and_eq_true, List.all_eq_true, Bool.or_eq_true, beq_iff_eq] at hself
    simp only [false_iff, not_exists, not_and, not_not]
    intro name hname hne
    exact (hself.2 name hname).resolve_left hne
  · simp only [List.all_eq_true, not_forall] at hall
    obtain ⟨missing, hmem, hmissing⟩ := hall
    simp only [true_iff]
    by_cases hown : rule.name ∈ Alternation.references rule.body
    · simpa [hown, and_assoc] using hself
    · exact ⟨missing, hmem, fun heq => hown (heq ▸ hmem), hmissing⟩

/-- A rule is found no sooner than the other names it refers to. -/
lemma satisfies_of_judge? (h : found.judge? rule = some verdict) (hname : name ∈ rule.dependencies)
    (hne : name ≠ rule.name) : found.satisfies name := by
  by_contra hmissing
  have hnone := judge?_eq_none.mpr ⟨name, hname, hne, hmissing⟩
  rw [hnone] at h
  cases h

/-! ### Passes -/

lemma consider_of_judge? {state : Findings × List Rule} (h : state.1.judge? rule = some verdict) :
    consider rule state = (state.1.add rule verdict, state.2) := by
  simp [consider, h]

lemma consider_of_judge?_eq_none {state : Findings × List Rule} (h : state.1.judge? rule = none) :
    consider rule state = (state.1, rule :: state.2) := by
  simp [consider, h]

lemma pass_cons {rest : List Rule} : pass found (rule :: rest) = consider rule (pass found rest) :=
  rfl

/-- The rules a pass leaves are some of those given, in their order. -/
lemma pass_sublist (found : Findings) (left : List Rule) : (pass found left).2.Sublist left := by
  -- The rules behind are looked at first, so a pass adds its first rule last.
  induction left with
  | nil => exact .slnil
  | cons rule rest ih =>
    rw [pass_cons]
    cases hjudge : (pass found rest).1.judge? rule with
    | none =>
      rw [consider_of_judge?_eq_none hjudge]
      exact ih.cons_cons rule
    | some verdict =>
      rw [consider_of_judge? hjudge]
      exact ih.cons rule

/-- A pass that leaves as many rules as there were has said nothing of any of them. -/
lemma pass_eq_self (h : (pass found left).2.length = left.length) :
    pass found left = (found, left) ∧ ∀ rule ∈ left, found.judge? rule = none := by
  induction left with
  | nil => exact ⟨rfl, by simp⟩
  | cons rule rest ih =>
    rw [pass_cons] at h ⊢
    cases hjudge : (pass found rest).1.judge? rule with
    | none =>
      rw [consider_of_judge?_eq_none hjudge] at h ⊢
      obtain ⟨heq, hrest⟩ := ih (Nat.succ.inj h)
      rw [heq] at hjudge ⊢
      refine ⟨rfl, ?_⟩
      rw [List.forall_mem_cons]
      exact ⟨hjudge, hrest⟩
    | some verdict =>
      rw [consider_of_judge? hjudge] at h
      have hle := (pass_sublist found rest).length_le
      simp only [List.length_cons] at h
      omega

variable {P : Findings → Prop}

/-- What every finding keeps, a pass keeps. -/
lemma pass_induction
    (hadd : ∀ found rule verdict, rule ∈ left → found.judge? rule = some verdict → P found →
      P (found.add rule verdict)) (h : P found) : P (pass found left).1 := by
  induction left with
  | nil => exact h
  | cons rule rest ih =>
    have hrest : P (pass found rest).1 := ih fun found other verdict hother =>
      hadd found other verdict (List.mem_cons_of_mem _ hother)
    rw [pass_cons]
    cases hjudge : (pass found rest).1.judge? rule with
    | none =>
      rw [consider_of_judge?_eq_none hjudge]
      exact hrest
    | some verdict =>
      rw [consider_of_judge? hjudge]
      exact hadd _ rule verdict List.mem_cons_self hjudge hrest

/-- What every finding keeps holds when the passes are over. -/
lemma passes_induction
    (hadd : ∀ found rule verdict, rule ∈ left → found.judge? rule = some verdict → P found →
      P (found.add rule verdict)) (h : P found) : P (passes turns found left).1 := by
  induction turns generalizing found left with
  | zero => exact h
  | succ turns ih =>
    rw [passes]
    split_ifs
    · exact pass_induction hadd h
    · have hsubset := (pass_sublist found left).subset
      exact ih (fun found rule verdict hrule => hadd found rule verdict (hsubset hrule))
        (pass_induction hadd h)

/-- With a turn for every rule, the passes go on until nothing can be said of the rules left. -/
lemma judge?_passes (hturns : left.length ≤ turns) :
    ∀ rule ∈ (passes turns found left).2, (passes turns found left).1.judge? rule = none := by
  induction turns generalizing found left with
  | zero =>
    obtain rfl := List.length_eq_zero_iff.mp (Nat.le_zero.mp hturns)
    simp [passes]
  | succ turns ih =>
    rw [passes]
    -- A pass that finds something leaves one turn more than there are rules.
    split_ifs with hlength
    · obtain ⟨heq, hjudge⟩ := pass_eq_self hlength
      rw [heq]
      exact hjudge
    · have hle := (pass_sublist found left).length_le
      exact ih (by omega)

/-- Every regular rule refers to earlier ones and to self-resolvable ones only. -/
def IsOrdered (found : Findings) : Prop :=
  ∀ before rule after, found.regular = before ++ rule :: after → ∀ name ∈ rule.dependencies,
    (∃ earlier ∈ before, earlier.name = name) ∨ ∃ other ∈ found.selfResolvable, other.name = name

lemma IsOrdered.add (h : found.IsOrdered) (hjudge : found.judge? rule = some verdict) :
    (found.add rule verdict).IsOrdered := by
  cases verdict with
  | selfResolvable =>
    intro before found' after heq name hname
    obtain hearlier | ⟨other, hother, hotherName⟩ := h before found' after heq name hname
    · exact .inl hearlier
    · exact .inr ⟨other, List.mem_append_left _ hother, hotherName⟩
  | regular =>
    intro before found' after heq name hname
    change found.regular ++ [rule] = before ++ found' :: after at heq
    rcases List.eq_nil_or_concat after with rfl | ⟨after, last, rfl⟩
    · obtain ⟨rfl, hlast⟩ := List.append_inj' heq rfl
      obtain rfl := List.singleton_inj.mp hlast
      obtain ⟨other, hother, hotherName⟩ :=
        satisfies_iff.mp (judge?_eq_regular.mp hjudge name hname)
      rcases List.mem_append.mp hother with hother | hother
      · exact .inl ⟨other, hother, hotherName⟩
      · exact .inr ⟨other, hother, hotherName⟩
    · rw [List.concat_eq_append, ← List.cons_append, ← List.append_assoc] at heq
      obtain ⟨heq, -⟩ := List.append_inj' heq rfl
      exact h before found' after heq name hname

end Findings

/-! ### Classifying rules -/

/-- The rules found, of either kind. -/
def Classification.found (classification : Classification) : List Rule :=
  classification.regular.rules ++ classification.selfResolvable

variable {rules : List Rule} {rule : Rule} {name : String}

lemma mem_found_iff : rule ∈ (classify rules).found ↔
    rule ∈ (classify rules).regular.rules ∨ rule ∈ (classify rules).selfResolvable :=
  List.mem_append

lemma mem_iff_found_or_unresolved :
    rule ∈ rules ↔ rule ∈ (classify rules).found ∨ rule ∈ (classify rules).unresolved := by
  rw [← (classify_perm rules).mem_iff, List.mem_append]
  rfl

lemma satisfies_classify :
    (Findings.passes rules.length ⟨[], []⟩ rules).1.satisfies name ↔
      ∃ rule ∈ (classify rules).found, rule.name = name :=
  Findings.satisfies_iff

/-- A property of names holds of all names found if it holds of a rule whenever it holds of the
other names that the rule refers to. -/
lemma classify_induction {P : String → Prop}
    (h : ∀ rule ∈ rules, (∀ name ∈ rule.dependencies, name ≠ rule.name → P name) → P rule.name) :
    ∀ rule ∈ (classify rules).found, P rule.name := by
  have hfound : ∀ name,
      (Findings.passes rules.length ⟨[], []⟩ rules).1.satisfies name → P name := by
    refine Findings.passes_induction (P := fun found => ∀ name, found.satisfies name → P name) ?_ ?_
    · intro found rule verdict hrule hjudge hfound name hname
      rcases Findings.satisfies_add.mp hname with hname | rfl
      · exact hfound name hname
      · exact h rule hrule fun name hname hne =>
          hfound name (Findings.satisfies_of_judge? hjudge hname hne)
    · intro name hname
      simp [Findings.satisfies] at hname
  intro rule hrule
  exact hfound rule.name (satisfies_classify.mpr ⟨rule, hrule, rfl⟩)

/-- A regular rule refers to earlier ones and to self-resolvable ones only. -/
lemma classify_regular_eq_append {before after : List Rule}
    (h : (classify rules).regular.rules = before ++ rule :: after)
    (hname : name ∈ rule.dependencies) :
    (∃ earlier ∈ before, earlier.name = name) ∨
      ∃ other ∈ (classify rules).selfResolvable, other.name = name := by
  have hordered : (Findings.passes rules.length ⟨[], []⟩ rules).1.IsOrdered := by
    refine Findings.passes_induction (fun _ _ _ _ hjudge hfound => hfound.add hjudge) ?_
    intro before rule after heq
    simp at heq
  exact hordered before rule after h name hname

/-- A self-resolvable rule refers to itself. -/
lemma mem_dependencies_of_selfResolvable (h : rule ∈ (classify rules).selfResolvable) :
    rule.name ∈ rule.dependencies := by
  have hself : ∀ rule ∈ (Findings.passes rules.length ⟨[], []⟩ rules).1.selfResolvable,
      rule.name ∈ rule.dependencies := by
    refine Findings.passes_induction
      (P := fun found => ∀ rule ∈ found.selfResolvable, rule.name ∈ rule.dependencies) ?_ (by simp)
    intro found rule verdict _ hjudge hfound
    cases verdict with
    | regular => exact hfound
    | selfResolvable =>
      simp only [Findings.add, List.forall_mem_append, List.forall_mem_singleton]
      exact ⟨hfound, Findings.mem_dependencies_of_judge? hjudge⟩
  exact hself rule h

/-- An unresolved rule refers to another name that is not found. -/
lemma exists_missing_of_unresolved (h : rule ∈ (classify rules).unresolved) :
    ∃ name ∈ rule.dependencies, name ≠ rule.name ∧
      ∀ other ∈ (classify rules).found, other.name ≠ name := by
  obtain ⟨name, hname, hne, hmissing⟩ :=
    Findings.judge?_eq_none.mp (Findings.judge?_passes (Nat.le_refl _) rule h)
  refine ⟨name, hname, hne, ?_⟩
  intro other hother heq
  exact hmissing (satisfies_classify.mpr ⟨other, hother, heq⟩)

end AugmentedBnf
