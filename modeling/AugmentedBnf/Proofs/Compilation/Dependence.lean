import AugmentedBnf.Proofs.Classification.Reachability
import AugmentedBnf.Proofs.Compilation.Termination

/-!
# What a compilation depends on

Whether a rule is regular is told by the names that can be reached from it, and an expansion comes to
no other names. So the automaton of a name depends on no rule that cannot be reached from it, nor on
the order of rules.

* `AgreeFrom.get?_eq`: what can be reached from a name tells what it stands for.
* `RegularRules.compile_depends_on_reachable`: the same rules within reach give the same automaton
  or fault.
-/

namespace AugmentedBnf

open Relation

/-- Two lists of rules define alike all names that can be reached from a root in the first of them.
A reference of a rule to itself leads to no other name. -/
def AgreeFrom (rules rules' : List Rule) (root : String) : Prop :=
  ∀ name, ReflTransGen (RefersTo rules) root name →
    Grammar.rule? ⟨rules⟩ name = Grammar.rule? ⟨rules'⟩ name

lemma find?_name_eq_some {rules : List Rule} {rule : Rule} {name : String}
    (hnames : (rules.map Rule.name).Nodup) :
    rules.find? (·.name == name) = some rule ↔ rule ∈ rules ∧ rule.name = name := by
  constructor
  · intro h
    exact ⟨List.mem_of_find?_eq_some h, by simpa using List.find?_some h⟩
  · intro h
    obtain ⟨hmem, rfl⟩ := h
    obtain ⟨found, hfound⟩ : ∃ found, rules.find? (·.name == rule.name) = some found := by
      rw [← Option.isSome_iff_exists, List.find?_isSome]
      exact ⟨rule, hmem, beq_self_eq_true _⟩
    have hname : found.name = rule.name := by simpa using List.find?_some hfound
    obtain rfl :=
      List.inj_on_of_nodup_map hnames (List.mem_of_find?_eq_some hfound) hmem hname
    exact hfound

lemma get?_classify {rules : List Rule} {rule : Rule} {name : String}
    (hnames : (rules.map Rule.name).Nodup) :
    (classify rules).regular.get? name = some rule ↔
      rule ∈ (classify rules).regular.rules ∧ rule.name = name := by
  have hreverse : ((classify rules).regular.rules.reverse.map Rule.name).Nodup := by
    rw [List.map_reverse, List.nodup_reverse]
    exact nodup_names_regular hnames
  rw [RegularRules.get?, find?_name_eq_some hreverse, List.mem_reverse]

namespace AgreeFrom

variable {rules rules' : List Rule} {root name source target : String} {rule : Rule}

lemma of_reaches (h : AgreeFrom rules rules' root)
    (hreach : ReflTransGen (RefersTo rules) root name) : AgreeFrom rules rules' name :=
  fun _ hname => h _ (hreach.trans hname)

section

variable (hnames : (rules.map Rule.name).Nodup) (hnames' : (rules'.map Rule.name).Nodup)
include hnames hnames'

lemma mem_iff (h : AgreeFrom rules rules' root) (hname : rule.name = root) :
    rule ∈ rules ↔ rule ∈ rules' := by
  have hsame := congrArg (· = some rule) (h root .refl)
  simp only [Grammar.rule?, find?_name_eq_some hnames, find?_name_eq_some hnames', hname,
    and_true] at hsame
  exact hsame.to_iff

lemma refersTo_iff (h : AgreeFrom rules rules' source) :
    RefersTo rules source target ↔ RefersTo rules' source target := by
  refine exists_congr fun rule => ?_
  constructor
  · rintro ⟨hrule, hname, hrefers⟩
    exact ⟨(h.mem_iff hnames hnames' hname).mp hrule, hname, hrefers⟩
  · rintro ⟨hrule, hname, hrefers⟩
    exact ⟨(h.mem_iff hnames hnames' hname).mpr hrule, hname, hrefers⟩

lemma reaches (h : AgreeFrom rules rules' root)
    (hreach : ReflTransGen (RefersTo rules) root name) :
    ReflTransGen (RefersTo rules') root name := by
  induction hreach with
  | refl => exact .refl
  | tail hreach hstep ih =>
    exact ih.tail (((h.of_reaches hreach).refersTo_iff hnames hnames').mp hstep)

lemma transGen (h : AgreeFrom rules rules' root) (hreach : TransGen (RefersTo rules) root name) :
    TransGen (RefersTo rules') root name := by
  obtain ⟨last, hreach, hstep⟩ := TransGen.tail'_iff.mp hreach
  exact .tail' (h.reaches hnames hnames' hreach)
    (((h.of_reaches hreach).refersTo_iff hnames hnames').mp hstep)

lemma symm (h : AgreeFrom rules rules' root) : AgreeFrom rules' rules root := by
  have hreaches : ∀ name, ReflTransGen (RefersTo rules') root name →
      ReflTransGen (RefersTo rules) root name := by
    intro name hreach
    induction hreach with
    | refl => exact .refl
    | tail _ hstep ih => exact ih.tail (((h.of_reaches ih).refersTo_iff hnames hnames').mpr hstep)
  exact fun name hname => (h name (hreaches name hname)).symm

lemma isObstructed (h : AgreeFrom rules rules' root) (hobstructed : IsObstructed rules root) :
    IsObstructed rules' root := by
  obtain ⟨target, hpath, htarget⟩ := hobstructed
  have hagree := h.of_reaches hpath
  refine ⟨target, h.reaches hnames hnames' hpath, ?_⟩
  rcases htarget with hundefined | ⟨other, hne, hthere, hback⟩
  · refine .inl fun rule hrule hname => ?_
    exact hundefined rule ((hagree.mem_iff hnames hnames' hname).mpr hrule) hname
  · have hother := hagree.of_reaches hthere.to_reflTransGen
    exact .inr ⟨other, hne, hagree.transGen hnames hnames' hthere,
      hother.transGen hnames hnames' hback⟩

lemma isObstructed_iff (h : AgreeFrom rules rules' root) :
    IsObstructed rules root ↔ IsObstructed rules' root :=
  ⟨h.isObstructed hnames hnames', (h.symm hnames hnames').isObstructed hnames' hnames⟩

/-- Names that are defined alike, with all that can be reached from them, stand for the same. -/
lemma get?_eq (h : AgreeFrom rules rules' root) :
    (classify rules).regular.get? root = (classify rules').regular.get? root := by
  ext rule
  simp only [get?_classify hnames, get?_classify hnames', mem_classify_iff hnames,
    mem_classify_iff hnames']
  constructor
  · rintro ⟨⟨hrule, hclear, hself⟩, rfl⟩
    exact ⟨⟨(h.mem_iff hnames hnames' rfl).mp hrule,
      fun hobstructed => hclear ((h.isObstructed_iff hnames hnames').mpr hobstructed), hself⟩, rfl⟩
  · rintro ⟨⟨hrule, hclear, hself⟩, rfl⟩
    exact ⟨⟨(h.mem_iff hnames hnames' rfl).mpr hrule,
      fun hobstructed => hclear ((h.isObstructed_iff hnames hnames').mp hobstructed), hself⟩, rfl⟩

/-! ### Expansions -/

omit hnames hnames' in
/-- The names that the rule of a name refers to can be reached from it. -/
lemma of_mem_dependencies (h : AgreeFrom rules rules' rule.name) (hrule : rule ∈ rules)
    (hname : name ∈ rule.dependencies) : AgreeFrom rules rules' name := by
  by_cases hself : name = rule.name
  · rwa [hself]
  · exact h.of_reaches (.single ⟨rule, hrule, rfl, hname, hself⟩)

lemma resolve_eq (h : AgreeFrom rules rules' name) (user : String) :
    (classify rules).regular.resolve user name = (classify rules').regular.resolve user name := by
  simp only [RegularRules.resolve, h.get?_eq hnames hnames']

/-- At the same depth, names that are defined alike have the same answers. -/
lemma inline_eq (h : AgreeFrom rules rules' name) (options : Options) (depth : Nat)
    (user : String) :
    (classify rules).regular.inline options depth user name =
      (classify rules').regular.inline options depth user name := by
  induction depth generalizing user name with
  | zero => simp only [RegularRules.inline, h.resolve_eq hnames hnames']
  | succ depth ih =>
    have hsame := h.resolve_eq hnames hnames' user
    cases hfound : (classify rules).regular.resolve user name with
    | error error =>
      rw [hfound] at hsame
      rw [RegularRules.inline_eq_error hfound, RegularRules.inline_eq_error hsame.symm]
    | ok found =>
      rw [hfound] at hsame
      rw [RegularRules.inline_succ hfound, RegularRules.inline_succ hsame.symm]
      obtain ⟨hregular, rfl⟩ := RegularRules.name_of_get? (RegularRules.resolve_eq_ok hfound).1
      have hrule := regular_subset rules hregular
      -- Stability is equality here, and the names of the body are within reach as the rule is.
      refine Alternation.expand_related isStable_eq (.refl options) found.body fun inner hinner => ?_
      exact ih (h.of_mem_dependencies hrule (Rule.mem_dependencies.mpr hinner)) found.name

/-- More depth than either list needs makes no difference to it. -/
lemma expand_eq (h : AgreeFrom rules rules' root) (options : Options) :
    (classify rules).regular.expand options root =
      (classify rules').regular.expand options root := by
  have hends := RegularRules.not_isEndless_expand
    (RegularRules.findsOnceFrom_of_nodup hnames root) options
  have hends' := RegularRules.not_isEndless_expand
    (RegularRules.findsOnceFrom_of_nodup hnames' root) options
  -- The lists may differ in size, so both are gone into as deep as the longer one needs.
  let depth := max (classify rules).regular.size (classify rules').regular.size
  calc (classify rules).regular.expand options root
    _ = (classify rules).regular.inline options depth root root :=
      (RegularRules.inline_eq_expand (Nat.le_max_left _ _) hends).symm
    _ = (classify rules').regular.inline options depth root root :=
      h.inline_eq hnames hnames' options depth root
    _ = (classify rules').regular.expand options root :=
      RegularRules.inline_eq_expand (Nat.le_max_right _ _) hends'

end

/-! ### Other rules and other orders -/

lemma of_perm (hnames : (rules.map Rule.name).Nodup) (h : rules'.Perm rules) :
    AgreeFrom rules rules' root := by
  have hnames' : (rules'.map Rule.name).Nodup := (h.map Rule.name).nodup_iff.mpr hnames
  intro name _
  ext rule
  simp only [Grammar.rule?, find?_name_eq_some hnames, find?_name_eq_some hnames', h.mem_iff]

lemma append {others : List Rule}
    (h : ∀ other ∈ others, ¬ ReflTransGen (RefersTo rules) root other.name) :
    AgreeFrom rules (rules ++ others) root := by
  intro name hname
  have hnone : others.find? (·.name == name) = none := by
    rw [List.find?_eq_none]
    intro other hother heq
    rw [beq_iff_eq] at heq
    exact h other hother (heq ▸ hname)
  simp only [Grammar.rule?, List.find?_append, hnone, Option.or_none]

end AgreeFrom

namespace RegularRules

variable {rules : List Rule} {root : String}

/-- Where names are defined once, rules that agree on all that can be reached from a name compile it
to the same automaton, or to the same error. Neither their order nor rules that cannot be reached
make a difference. -/
theorem compile_depends_on_reachable (hnames : (rules.map Rule.name).Nodup) (options : Options)
    (root : String) :
    (∀ rules' : List Rule, (rules'.map Rule.name).Nodup → AgreeFrom rules rules' root →
      (classify rules').regular.compile options root =
        (classify rules).regular.compile options root) ∧
    (∀ rules' : List Rule, rules'.Perm rules →
      (classify rules').regular.compile options root =
        (classify rules).regular.compile options root) ∧
    ∀ others : List Rule, ((rules ++ others).map Rule.name).Nodup →
      (∀ other ∈ others, ¬ ReflTransGen (RefersTo rules) root other.name) →
      (classify (rules ++ others)).regular.compile options root =
        (classify rules).regular.compile options root := by
  have hagree : ∀ rules' : List Rule, (rules'.map Rule.name).Nodup → AgreeFrom rules rules' root →
      (classify rules').regular.compile options root =
        (classify rules).regular.compile options root := by
    intro rules' hnames' h
    simp only [compile, h.expand_eq hnames hnames']
  refine ⟨hagree, fun rules' hperm => ?_, fun others hothers hreach => ?_⟩
  · exact hagree rules' ((hperm.map Rule.name).nodup_iff.mpr hnames) (.of_perm hnames hperm)
  · exact hagree (rules ++ others) hothers (.append hreach)

/-- The rules `leaf = "x"`, `loop = loop`, `middle = leaf / "-" leaf` and `top =/ loop missing`. -/
def overgrownRules : List Rule :=
  [nestedRules[2],
    ⟨"loop", .basic, [[.once (.reference "loop")]]⟩,
    nestedRules[1],
    ⟨"top", .incremental, [[.once (.reference "loop"), .once (.reference "missing")]]⟩]

lemma agreeFrom_overgrownRules : AgreeFrom nestedRules overgrownRules "middle" := by
  have hreach : ∀ name, ReflTransGen (RefersTo nestedRules) "middle" name →
      name = "middle" ∨ name = "leaf" := by
    intro name hname
    induction hname with
    | refl => exact .inl rfl
    | tail _ hstep ih =>
      obtain ⟨rule, hrule, hname, hmem, -⟩ := hstep
      have hfound := (find?_name_eq_some (by decide)).mpr ⟨hrule, hname⟩
      rw [Rule.mem_dependencies] at hmem
      rcases ih with rfl | rfl
      · obtain rfl : nestedRules[1] = rule := Option.some.inj hfound
        have hleaf : ∀ name ∈ Alternation.references nestedRules[1].body, name = "leaf" := by
          decide
        exact .inr (hleaf _ hmem)
      · obtain rfl : nestedRules[2] = rule := Option.some.inj hfound
        exact absurd hmem List.not_mem_nil
  intro name hname
  rcases hreach name hname with rfl | rfl
  · rfl
  · rfl

/-- The rules that cannot be reached from `middle` are others, and the order is another one. -/
theorem compile_depends_on_reachable_overgrownRules :
    (nestedRules.map Rule.name).Nodup ∧ (overgrownRules.map Rule.name).Nodup ∧
      AgreeFrom nestedRules overgrownRules "middle" ∧
      ∀ options, (classify overgrownRules).regular.compile options "middle" =
        (classify nestedRules).regular.compile options "middle" := by
  have hnames : (nestedRules.map Rule.name).Nodup := by decide
  have hnames' : (overgrownRules.map Rule.name).Nodup := by decide
  refine ⟨hnames, hnames', agreeFrom_overgrownRules, fun options => ?_⟩
  exact (compile_depends_on_reachable hnames options "middle").1 overgrownRules hnames'
    agreeFrom_overgrownRules

end RegularRules

end AugmentedBnf
