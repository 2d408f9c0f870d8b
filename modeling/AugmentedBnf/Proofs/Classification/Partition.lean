import Mathlib.Data.List.Perm.Basic
import AugmentedBnf.Classification

/-!
# Classification loses no rule

Looking at a rule moves it from the rules left to the rules found, or leaves it where it is. Hence
the regular, self-resolvable and unresolved rules together are the rules given.
-/

namespace AugmentedBnf

namespace Findings

/-- All rules there are: those found, and those left. -/
def all (state : Findings × List Rule) : List Rule :=
  state.1.regular ++ state.1.selfResolvable ++ state.2

lemma all_consider_perm (rule : Rule) (state : Findings × List Rule) :
    (all (consider rule state)).Perm (rule :: all state) := by
  obtain ⟨found, left⟩ := state
  unfold consider
  cases found.judge? rule with
  | none => exact List.perm_middle
  | some verdict =>
    cases verdict with
    | regular => simp [all, add]
    | selfResolvable =>
      have hperm := @List.perm_middle _ rule (found.regular ++ found.selfResolvable) left
      simpa only [all, add, List.append_assoc, List.singleton_append] using hperm

lemma all_pass_perm (found : Findings) (left : List Rule) :
    (all (pass found left)).Perm (all (found, left)) := by
  induction left with
  | nil => rfl
  | cons rule rest ih =>
    -- A rule is looked at behind the others, and its place among them does not matter.
    have hlook : (all (pass found (rule :: rest))).Perm (rule :: all (pass found rest)) :=
      all_consider_perm rule _
    exact hlook.trans ((ih.cons rule).trans List.perm_middle.symm)

lemma all_passes_perm (turns : Nat) (found : Findings) (left : List Rule) :
    (all (passes turns found left)).Perm (all (found, left)) := by
  induction turns generalizing found left with
  | zero => rfl
  | succ turns ih =>
    rw [passes]
    split_ifs
    · exact all_pass_perm found left
    · exact (ih _ _).trans (all_pass_perm found left)

end Findings

/-- The three kinds of rules together are the rules given. -/
lemma classify_perm (rules : List Rule) :
    ((classify rules).regular.rules ++ (classify rules).selfResolvable ++
      (classify rules).unresolved).Perm rules :=
  Findings.all_passes_perm rules.length ⟨[], []⟩ rules

/-- Rules whose names differ are still told apart by them when they are classified. -/
lemma nodup_names_classify {rules : List Rule} (hnames : (rules.map Rule.name).Nodup) :
    (((classify rules).regular.rules ++ (classify rules).selfResolvable ++
      (classify rules).unresolved).map Rule.name).Nodup :=
  ((classify_perm rules).map Rule.name).nodup_iff.mpr hnames

lemma nodup_names_regular {rules : List Rule} (hnames : (rules.map Rule.name).Nodup) :
    ((classify rules).regular.rules.map Rule.name).Nodup := by
  have hall := nodup_names_classify hnames
  rw [List.append_assoc, List.map_append] at hall
  exact (List.nodup_append.mp hall).1

lemma regular_subset (rules : List Rule) : (classify rules).regular.rules ⊆ rules := by
  intro rule hrule
  apply (classify_perm rules).subset
  simp [hrule]

end AugmentedBnf
