import Mathlib.Data.Fintype.Card
import Mathlib.Data.Set.Finite.List
import Mathlib.Logic.Relation
import Mathlib.Order.WellFounded
import AugmentedBnf.Proofs.Classification.Fixpoint

/-!
# Classification is reachability

Rules and the other rules they refer to make up a graph of names. A rule is left unresolved exactly
if a way through this graph leads from it to a name without a rule, or around a cycle. The order of
the rules does not matter.

One direction is an induction over the names found: nothing that is found is obstructed. For the
other, unresolved rules wait for one another, and as there are finitely many, they do so in a cycle.

* `classified_by_reachability`: the verdict on every rule, and its independence of their order.
-/

namespace AugmentedBnf

open Relation

section

variable (rules : List Rule)

/-- A rule of the one name refers to the other, which is not its own. -/
def RefersTo (source target : String) : Prop :=
  ∃ rule ∈ rules, rule.name = source ∧ target ∈ rule.dependencies ∧ target ≠ source

def IsUndefined (name : String) : Prop := ∀ rule ∈ rules, rule.name ≠ name

/-- A name lies on a cycle of two names or more. -/
def IsOnCycle (name : String) : Prop :=
  ∃ other, other ≠ name ∧
    TransGen (RefersTo rules) name other ∧ TransGen (RefersTo rules) other name

/-- What stands in the way of a rule can be reached from its name: a name without a rule, or one on
a cycle. -/
def IsObstructed (name : String) : Prop :=
  ∃ target, ReflTransGen (RefersTo rules) name target ∧
    (IsUndefined rules target ∨ IsOnCycle rules target)

end

variable {rules : List Rule} {rule : Rule} {name : String}

/-- No name refers to itself, so that any way back to a name is a cycle of two names or more. -/
lemma isOnCycle_of_transGen (h : TransGen (RefersTo rules) name name) : IsOnCycle rules name := by
  obtain ⟨next, hstep, hback⟩ := TransGen.head'_iff.mp h
  obtain ⟨rule, hrule, hname, hmem, hne⟩ := hstep
  rcases reflTransGen_iff_eq_or_transGen.mp hback with heq | hback
  · exact absurd heq.symm hne
  · exact ⟨next, hne, .single ⟨rule, hrule, hname, hmem, hne⟩, hback⟩

/-- An obstruction is met at once or behind a reference. On a cycle it lies behind one, too. -/
lemma IsObstructed.cases (h : IsObstructed rules name) :
    IsUndefined rules name ∨ ∃ next, RefersTo rules name next ∧ IsObstructed rules next := by
  obtain ⟨target, hpath, htarget⟩ := h
  rcases hpath.cases_head with rfl | ⟨next, hstep, hpath⟩
  · rcases htarget with hundefined | hcycle
    · exact .inl hundefined
    · obtain ⟨other, hne, hthere, hback⟩ := hcycle
      obtain ⟨next, hstep, hpath⟩ := TransGen.head'_iff.mp hthere
      exact .inr ⟨next, hstep, name, hpath.trans hback.to_reflTransGen,
        .inr ⟨other, hne, hthere, hback⟩⟩
  · exact .inr ⟨next, hstep, target, hpath, htarget⟩

lemma IsObstructed.of_refersTo {next : String} (hstep : RefersTo rules name next)
    (h : IsObstructed rules next) : IsObstructed rules name := by
  obtain ⟨target, hpath, htarget⟩ := h
  exact ⟨target, hpath.head hstep, htarget⟩

/-- Among finitely many things, each of which leads to another one of them, some lead in a cycle. -/
lemma exists_transGen_self {α : Type} {R : α → α → Prop} {s : Set α} (hfinite : s.Finite)
    (hnonempty : s.Nonempty) (hstep : ∀ a ∈ s, ∃ b ∈ s, R a b) : ∃ a ∈ s, TransGen R a a := by
  by_contra hcycle
  push Not at hcycle
  have : Finite s := hfinite
  have : Nonempty s := hnonempty.to_subtype
  let after (b a : s) : Prop := TransGen R a b
  have : IsTrans s after := ⟨fun _ _ _ hab hbc => hbc.trans hab⟩
  have : Std.Irrefl after := ⟨fun a => hcycle a a.2⟩
  -- If nothing led in a cycle, what comes after would be well-founded and have a last one.
  obtain ⟨last, -, hlast⟩ :=
    (Finite.wellFounded_of_trans_of_irrefl after).has_min Set.univ Set.univ_nonempty
  obtain ⟨next, hnext, hlead⟩ := hstep last last.2
  exact hlast ⟨next, hnext⟩ trivial (.single hlead)

/-! ### Verdicts -/

/-- Where names are defined once, nothing stands in the way of a rule that is found. -/
lemma not_isObstructed_of_found (hnames : (rules.map Rule.name).Nodup) :
    ∀ rule ∈ (classify rules).found, ¬ IsObstructed rules rule.name := by
  refine classify_induction (P := fun name => ¬ IsObstructed rules name) ?_
  intro rule hrule hothers hobstructed
  rcases hobstructed.cases with hundefined | ⟨next, ⟨same, hsame, hname, hmem, hne⟩, hnext⟩
  · exact hundefined rule hrule rfl
  · obtain rfl := List.inj_on_of_nodup_map hnames hsame hrule hname
    exact hothers next hmem hne hnext

/-- An unresolved rule refers to a name without a rule or to an unresolved rule. -/
lemma exists_refersTo_of_unresolved (h : rule ∈ (classify rules).unresolved) :
    ∃ next, RefersTo rules rule.name next ∧
      (IsUndefined rules next ∨ ∃ other ∈ (classify rules).unresolved, other.name = next) := by
  obtain ⟨next, hmem, hne, hmissing⟩ := exists_missing_of_unresolved h
  have hrule : rule ∈ rules := mem_iff_found_or_unresolved.mpr (.inr h)
  refine ⟨next, ⟨rule, hrule, rfl, hmem, hne⟩, ?_⟩
  by_cases hdefined : ∃ other ∈ rules, other.name = next
  · obtain ⟨other, hother, hname⟩ := hdefined
    rcases mem_iff_found_or_unresolved.mp hother with hfound | hunresolved
    · exact absurd hname (hmissing other hfound)
    · exact .inr ⟨other, hunresolved, hname⟩
  · push Not at hdefined
    exact .inl hdefined

/-- Something stands in the way of every unresolved rule. -/
lemma isObstructed_of_unresolved (h : rule ∈ (classify rules).unresolved) :
    IsObstructed rules rule.name := by
  by_contra hclear
  -- The names of unresolved rules that can be reached without an obstruction.
  let waiting : Set String := {name |
    (∃ other ∈ (classify rules).unresolved, other.name = name) ∧ ¬ IsObstructed rules name}
  have hfinite : waiting.Finite := by
    refine (List.finite_toSet ((classify rules).unresolved.map Rule.name)).subset ?_
    rintro name ⟨⟨other, hother, rfl⟩, -⟩
    exact List.mem_map_of_mem hother
  have hstep : ∀ name ∈ waiting, ∃ next ∈ waiting, RefersTo rules name next := by
    rintro name ⟨⟨other, hother, rfl⟩, hname⟩
    obtain ⟨next, hnext, hundefined | hunresolved⟩ := exists_refersTo_of_unresolved hother
    · exact absurd ⟨next, .single hnext, .inl hundefined⟩ hname
    · exact ⟨next, ⟨hunresolved, fun hobstructed => hname (.of_refersTo hnext hobstructed)⟩, hnext⟩
  obtain ⟨name, ⟨-, hname⟩, hcycle⟩ :=
    exists_transGen_self hfinite ⟨rule.name, ⟨rule, h, rfl⟩, hclear⟩ hstep
  exact hname ⟨name, .refl, .inr (isOnCycle_of_transGen hcycle)⟩

/-- Where names are defined once, a regular rule refers neither to itself nor to a later one. -/
lemma notMem_dependencies_of_later (hnames : (rules.map Rule.name).Nodup)
    {before after : List Rule} (heq : (classify rules).regular.rules = before ++ rule :: after)
    {later : Rule} (hlater : later ∈ rule :: after) : later.name ∉ rule.dependencies := by
  intro hname
  have hlater := List.mem_map_of_mem (f := Rule.name) hlater
  have hall := nodup_names_classify hnames
  rw [heq] at hall
  simp only [List.map_append, List.append_assoc] at hall
  obtain ⟨-, hrest, hbefore⟩ := List.nodup_append'.mp hall
  obtain ⟨-, -, hfound⟩ := List.nodup_append'.mp hrest
  rcases classify_regular_eq_append heq hname with
    ⟨earlier, hearlier, hsame⟩ | ⟨other, hother, hsame⟩
  · exact hbefore (List.mem_map_of_mem hearlier) (hsame ▸ List.mem_append_left _ hlater)
  · exact hfound hlater (hsame ▸ List.mem_append_left _ (List.mem_map_of_mem hother))

/-- Where names are defined once, no regular rule refers to itself. -/
lemma notMem_dependencies_of_regular (hnames : (rules.map Rule.name).Nodup)
    (h : rule ∈ (classify rules).regular.rules) : rule.name ∉ rule.dependencies := by
  obtain ⟨before, after, heq⟩ := List.append_of_mem h
  exact notMem_dependencies_of_later hnames heq List.mem_cons_self

/-- Where names are defined once, a regular rule refers to other names than its own. -/
lemma refersTo_of_regular (hnames : (rules.map Rule.name).Nodup) {target : String}
    (h : rule ∈ (classify rules).regular.rules) (hname : target ∈ rule.dependencies) :
    RefersTo rules rule.name target := by
  have hself := notMem_dependencies_of_regular hnames h
  exact ⟨rule, regular_subset rules h, rfl, hname, fun heq => hself (heq ▸ hname)⟩

/-- Where names are defined once, what stands in the way of a rule and whether it refers to itself
decide on it. -/
lemma mem_classify_iff (hnames : (rules.map Rule.name).Nodup) (rule : Rule) :
    (rule ∈ (classify rules).unresolved ↔ rule ∈ rules ∧ IsObstructed rules rule.name) ∧
    (rule ∈ (classify rules).selfResolvable ↔
      rule ∈ rules ∧ ¬ IsObstructed rules rule.name ∧ rule.name ∈ rule.dependencies) ∧
    (rule ∈ (classify rules).regular.rules ↔
      rule ∈ rules ∧ ¬ IsObstructed rules rule.name ∧ rule.name ∉ rule.dependencies) := by
  have hall : rule ∈ rules ↔ _ := mem_iff_found_or_unresolved
  have hunresolved : rule ∈ (classify rules).unresolved → _ := isObstructed_of_unresolved
  have hself : rule ∈ (classify rules).selfResolvable → _ := mem_dependencies_of_selfResolvable
  have hregular : rule ∈ (classify rules).regular.rules → _ := notMem_dependencies_of_regular hnames
  have hclear := not_isObstructed_of_found hnames rule
  rw [mem_found_iff] at hall hclear
  tauto

/-! ### The order of rules -/

lemma isObstructed_congr {rules' : List Rule} (h : rules'.Perm rules) :
    IsObstructed rules' name ↔ IsObstructed rules name := by
  have hrefers : RefersTo rules' = RefersTo rules := by
    funext source target
    simp only [RefersTo, h.mem_iff]
  simp only [IsObstructed, IsUndefined, IsOnCycle, hrefers, h.mem_iff]

lemma nodup_classify (hnames : (rules.map Rule.name).Nodup) :
    (classify rules).regular.rules.Nodup ∧ (classify rules).selfResolvable.Nodup ∧
      (classify rules).unresolved.Nodup := by
  have hall := (classify_perm rules).nodup_iff.mpr (List.Nodup.of_map _ hnames)
  have hfound := hall.of_append_left
  exact ⟨hfound.of_append_left, hfound.of_append_right, hall.of_append_right⟩

/-- Where names are defined once, a rule is unresolved exactly if a way through the graph of names
leads from it to a name without a rule or around a cycle. Of the other rules, those that refer to
themselves are self-resolvable, and the rest are regular. In another order the same rules are
regular, self-resolvable and unresolved. -/
theorem classified_by_reachability (hnames : (rules.map Rule.name).Nodup) :
    (∀ rule ∈ rules,
      (rule ∈ (classify rules).unresolved ↔ IsObstructed rules rule.name) ∧
      (rule ∈ (classify rules).selfResolvable ↔
        ¬ IsObstructed rules rule.name ∧ rule.name ∈ rule.dependencies) ∧
      (rule ∈ (classify rules).regular.rules ↔
        ¬ IsObstructed rules rule.name ∧ rule.name ∉ rule.dependencies)) ∧
    ∀ rules' : List Rule, rules'.Perm rules →
      (classify rules').unresolved.Perm (classify rules).unresolved ∧
      (classify rules').selfResolvable.Perm (classify rules).selfResolvable ∧
      (classify rules').regular.rules.Perm (classify rules).regular.rules := by
  constructor
  · intro rule hrule
    simpa only [hrule, true_and] using mem_classify_iff hnames rule
  · intro rules' hperm
    have hnames' : (rules'.map Rule.name).Nodup := (hperm.map Rule.name).nodup_iff.mpr hnames
    have hmem := mem_classify_iff hnames
    have hmem' := mem_classify_iff hnames'
    simp only [hperm.mem_iff, isObstructed_congr hperm] at hmem'
    obtain ⟨hregular, hself, hunresolved⟩ := nodup_classify hnames
    obtain ⟨hregular', hself', hunresolved'⟩ := nodup_classify hnames'
    refine ⟨?_, ?_, ?_⟩
    · rw [List.perm_ext_iff_of_nodup hunresolved' hunresolved]
      exact fun rule => (hmem' rule).1.trans (hmem rule).1.symm
    · rw [List.perm_ext_iff_of_nodup hself' hself]
      exact fun rule => (hmem' rule).2.1.trans (hmem rule).2.1.symm
    · rw [List.perm_ext_iff_of_nodup hregular' hregular]
      exact fun rule => (hmem' rule).2.2.trans (hmem rule).2.2.symm

/-- The rules `a = b c`, `b = "b"`, `c = c "c" / b`, `d = e`, `e = d e`, `f = a d` and `g = b h`. -/
def entangledRules : List Rule :=
  [⟨"a", .basic, [[.once (.reference "b"), .once (.reference "c")]]⟩,
    ⟨"b", .basic, [[.once (.literal [0x62])]]⟩,
    ⟨"c", .basic, [[.once (.reference "c"), .once (.literal [0x63])], [.once (.reference "b")]]⟩,
    ⟨"d", .basic, [[.once (.reference "e")]]⟩,
    ⟨"e", .basic, [[.once (.reference "d"), .once (.reference "e")]]⟩,
    ⟨"f", .basic, [[.once (.reference "a"), .once (.reference "d")]]⟩,
    ⟨"g", .basic, [[.once (.reference "b"), .once (.reference "h")]]⟩]

lemma unresolved_entangledRules :
    (classify entangledRules).unresolved = entangledRules.drop 3 := by
  rfl

/-- The first three rules are clear of the others, and in the way of the others are the cycle of `d`
and `e` and the name `h`. The classification of the rules in reverse leaves the same ones. -/
theorem classified_by_reachability_entangledRules :
    (entangledRules.map Rule.name).Nodup ∧
      (∀ rule ∈ entangledRules.take 3, ¬ IsObstructed entangledRules rule.name) ∧
      (∀ rule ∈ entangledRules.drop 3, IsObstructed entangledRules rule.name) ∧
      (classify entangledRules.reverse).unresolved.Perm (entangledRules.drop 3) := by
  have hnames : (entangledRules.map Rule.name).Nodup := by decide
  obtain ⟨hverdicts, horder⟩ := classified_by_reachability hnames
  rw [unresolved_entangledRules] at hverdicts horder
  refine ⟨hnames, ?_, ?_, (horder _ (List.reverse_perm _)).1⟩
  · intro rule hrule hobstructed
    have hdrop := (hverdicts rule (List.mem_of_mem_take hrule)).1.mpr hobstructed
    have hnodup : entangledRules.Nodup := List.Nodup.of_map _ hnames
    exact List.disjoint_take_drop hnodup le_rfl hrule hdrop
  · intro rule hrule
    exact (hverdicts rule (List.mem_of_mem_drop hrule)).1.mp hrule

end AugmentedBnf
