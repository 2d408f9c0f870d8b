import Mathlib.Logic.Function.Iterate
import AugmentedBnf.Proofs.Classification.Fixpoint

/-!
# The passes of a classification

Every pass but the last one finds a rule, so that they come to an end, and it is the end alone that
tells what can be said of the rules left. What is found on the way is found behind the other names
that it refers to, and stays found. None of this asks that the rules have different names.

* `Findings.exists_iterate_again`: the passes are an iteration, and how many of them find something.
* `Findings.selfResolvable_of_passes`: what a self-resolvable rule refers to is found.
* `classify_partitions`: what a classification makes of any rules, and after how many passes.
-/

namespace AugmentedBnf

/-- A classification divides rules by what they refer to, and it goes as far as one can. -/
structure Classification.Partitions (classification : Classification) (rules : List Rule) :
    Prop where
  /-- Each rule is in one of the three lists, as many times as it is given. -/
  perm : (classification.regular.rules ++ classification.selfResolvable ++
    classification.unresolved).Perm rules
  /-- The rules left are in the order in which they are given. -/
  sublist : classification.unresolved.Sublist rules
  /-- A regular rule refers to earlier ones and to self-resolvable ones only. -/
  regular : ∀ before rule after, classification.regular.rules = before ++ rule :: after →
    ∀ name ∈ rule.dependencies, (∃ earlier ∈ before, earlier.name = name) ∨
      ∃ other ∈ classification.selfResolvable, other.name = name
  /-- A self-resolvable rule refers to itself, and otherwise to rules found. -/
  selfResolvable : ∀ rule ∈ classification.selfResolvable, rule.name ∈ rule.dependencies ∧
    ∀ name ∈ rule.dependencies, name ≠ rule.name →
      ∃ other ∈ classification.found, other.name = name
  /-- An unresolved rule refers to another name, and no rule of that name is found. -/
  unresolved : ∀ rule ∈ classification.unresolved, ∃ name ∈ rule.dependencies,
    name ≠ rule.name ∧ ∀ other ∈ classification.found, other.name ≠ name

namespace Findings

variable {found : Findings} {left : List Rule} {turns : Nat}

/-- The findings and the rules left after one more pass. -/
def again (state : Findings × List Rule) : Findings × List Rule := pass state.1 state.2

/-- The findings and the rules left after a number of passes, of which nothing is known before. -/
def afterPasses (rules : List Rule) (count : Nat) : Findings × List Rule :=
  again^[count] (⟨[], []⟩, rules)

/-- The passes are an iteration that ends where a pass finds nothing. No more passes find something
than there are rules. -/
lemma exists_iterate_again {state : Findings × List Rule} (hturns : state.2.length ≤ turns) :
    ∃ count ≤ state.2.length,
      (∀ earlier < count,
        (again^[earlier + 1] state).2.length < (again^[earlier] state).2.length) ∧
      again^[count + 1] state = again^[count] state ∧
      passes turns state.1 state.2 = again^[count] state := by
  induction turns generalizing state with
  | zero =>
    obtain ⟨found, left⟩ := state
    obtain rfl := List.length_eq_zero_iff.mp (Nat.le_zero.mp hturns)
    exact ⟨0, Nat.le_refl _, by simp, rfl, rfl⟩
  | succ turns ih =>
    have hle : (again state).2.length ≤ state.2.length := (pass_sublist state.1 state.2).length_le
    -- The first pass finds nothing, and so no later one would.
    by_cases hsame : (again state).2.length = state.2.length
    · obtain ⟨heq, -⟩ := pass_eq_self hsame
      refine ⟨0, Nat.zero_le _, by simp, heq, ?_⟩
      rw [passes, ← again, if_pos hsame]
      exact heq
    · have hlt : (again state).2.length < state.2.length := Nat.lt_of_le_of_ne hle hsame
      obtain ⟨count, hcount, hfinds, hlast, hpasses⟩ := @ih (again state) (by omega)
      refine ⟨count + 1, by omega, fun earlier hearlier => ?_, hlast, ?_⟩
      · cases earlier with
        | zero => exact hlt
        | succ earlier => exact hfinds earlier (by omega)
      · rw [passes, ← again, if_neg hsame]
        exact hpasses

/-- What a self-resolvable rule refers to besides itself is found, and it stays so. -/
lemma selfResolvable_of_passes (rules : List Rule) :
    ∀ rule ∈ (passes turns ⟨[], []⟩ rules).1.selfResolvable, ∀ name ∈ rule.dependencies,
      name ≠ rule.name → (passes turns ⟨[], []⟩ rules).1.satisfies name := by
  refine passes_induction (P := fun found => ∀ rule ∈ found.selfResolvable,
    ∀ name ∈ rule.dependencies, name ≠ rule.name → found.satisfies name) ?_ (by simp)
  intro found rule verdict _ hjudge hfound other hother name hname hne
  refine satisfies_add.mpr (.inl ?_)
  cases verdict with
  | regular => exact hfound other hother name hname hne
  | selfResolvable =>
    rcases List.mem_append.mp hother with hother | hother
    · exact hfound other hother name hname hne
    · obtain rfl := List.mem_singleton.mp hother
      exact satisfies_of_judge? hjudge hname hne

/-- The rules left by all passes are some of those given, in their order. -/
lemma passes_sublist (found : Findings) (left : List Rule) :
    (passes turns found left).2.Sublist left := by
  induction turns generalizing found left with
  | zero => exact .refl left
  | succ turns ih =>
    rw [passes]
    split_ifs
    · exact pass_sublist found left
    · exact (ih _ _).trans (pass_sublist found left)

end Findings

/-- Whatever their names, rules are divided into regular, self-resolvable and unresolved ones by
what they refer to. This takes one pass more than there are passes that find a rule, and no more
passes find one than there are rules. -/
theorem classify_partitions (rules : List Rule) :
    (classify rules).Partitions rules ∧
    ∃ count ≤ rules.length,
      (∀ earlier < count, (Findings.afterPasses rules (earlier + 1)).2.length <
        (Findings.afterPasses rules earlier).2.length) ∧
      Findings.afterPasses rules (count + 1) = Findings.afterPasses rules count ∧
      Findings.afterPasses rules count =
        (⟨(classify rules).regular.rules, (classify rules).selfResolvable⟩,
          (classify rules).unresolved) := by
  constructor
  · exact {
      perm := classify_perm rules
      sublist := Findings.passes_sublist _ rules
      regular := fun before rule after heq name hname => classify_regular_eq_append heq hname
      selfResolvable := fun rule hrule =>
        ⟨mem_dependencies_of_selfResolvable hrule, fun name hname hne =>
          satisfies_classify.mp (Findings.selfResolvable_of_passes rules rule hrule name hname hne)⟩
      unresolved := fun rule hrule => exists_missing_of_unresolved hrule }
  · obtain ⟨count, hcount, hfinds, hlast, hpasses⟩ :=
      @Findings.exists_iterate_again rules.length (⟨[], []⟩, rules) (Nat.le_refl _)
    exact ⟨count, hcount, hfinds, hlast, hpasses.symm⟩

/-- One of two rules of a name is found, and a rule that refers to this name and itself with it. -/
example :
    let list : Rule := ⟨"list", .basic, [[⟨none, .reference "item"⟩],
      [⟨none, .reference "list"⟩, ⟨none, .reference "item"⟩]]⟩
    let item : Rule := ⟨"item", .basic, [[⟨none, .literal [0x78]⟩]]⟩
    let other : Rule := ⟨"item", .basic, [[⟨none, .reference "missing"⟩]]⟩
    classify [list, item, other] = ⟨⟨[item]⟩, [list], [other]⟩ := by decide +kernel

end AugmentedBnf
