import AugmentedBnf.Proofs.Compilation.Dependence
import AugmentedBnf.Proofs.Compilation.Language
import AugmentedBnf.Proofs.Expansion.Substitution

/-!
# Unfolding references

A body is unfolded by putting the bodies of rules in the place of references to them, unfolded in
turn. This ends where every name within reach is a regular rule: a rule refers to names that stand
further to the front only. The rule with the unfolded body refers to nothing, but it has the same
automaton or the same fault.

* `CanUnfold.induction`: what every rule within reach has from the names it refers to, all names
  within reach have.
* `RegularRules.compile_unfolding`: there is one unfolded body, and it compiles alike.
-/

namespace AugmentedBnf

open Relation

section

variable (rules : List Rule) (root : String)

/-- Every name within reach of a root, the root among them, is a regular rule with a basic
definition. -/
def CanUnfold : Prop :=
  ∀ name, ReflTransGen (RefersTo rules) root name →
    ∃ rule ∈ (classify rules).regular.rules, rule.name = name ∧ rule.marker = .basic

/-- Bodies for names that are, for every rule within reach of a root, the body of the rule with
these bodies in the place of references. -/
def IsUnfolding (bodies : String → Alternation) : Prop :=
  ∀ rule ∈ rules, ReflTransGen (RefersTo rules) root rule.name →
    bodies rule.name = Alternation.substitute bodies rule.body

end

/-- The body of a name, unfolded up to a depth. What is below it is left out. -/
def RegularRules.unfold (regular : RegularRules) : Nat → String → Alternation
  | 0, _ => []
  | depth + 1, name =>
    match regular.get? name with
    | none => []
    | some rule => Alternation.substitute (regular.unfold depth) rule.body

lemma RegularRules.position_lt_size {regular : RegularRules} {rule : Rule}
    (h : rule ∈ regular.rules) : regular.position rule.name < regular.size := by
  have hlt := List.idxOf_lt_length_of_mem (List.mem_map_of_mem (f := Rule.name) h)
  rwa [List.length_map] at hlt

namespace CanUnfold

variable {rules : List Rule} {root name : String} {bodies : String → Alternation}

/-- The names that a rule within reach refers to are within reach, and stand further to the
front. -/
lemma of_mem_references (hnames : (rules.map Rule.name).Nodup) (h : CanUnfold rules root)
    {rule : Rule} (hrule : rule ∈ (classify rules).regular.rules)
    (hreach : ReflTransGen (RefersTo rules) root rule.name)
    (hname : name ∈ Alternation.references rule.body) :
    ReflTransGen (RefersTo rules) root name ∧
      (classify rules).regular.position name < (classify rules).regular.position rule.name := by
  have hmem := Rule.mem_dependencies.mpr hname
  have hreach' := hreach.tail (refersTo_of_regular hnames hrule hmem)
  obtain ⟨target, htarget, rfl, -⟩ := h name hreach'
  have hinlines : (classify rules).regular.Inlines rule.name target.name :=
    ⟨rule, (get?_classify hnames).mpr ⟨hrule, rfl⟩, hmem, RegularRules.contains_iff.mpr
      ⟨target, (get?_classify hnames).mpr ⟨htarget, rfl⟩⟩⟩
  refine ⟨hreach', RegularRules.position_lt_of_inlines ?_ ?_ hinlines⟩
  · exact RegularRules.findsOnceFrom_of_nodup hnames _ _ .refl
  · exact RegularRules.findsOnceFrom_of_nodup hnames _ _ .refl

/-- What every rule within reach has from the names it refers to, which stand further to the front,
all names within reach have. -/
@[elab_as_elim]
lemma induction {P : String → Prop} (hnames : (rules.map Rule.name).Nodup)
    (h : CanUnfold rules root)
    (hrule : ∀ rule ∈ (classify rules).regular.rules,
      ReflTransGen (RefersTo rules) root rule.name → rule.marker = .basic →
      (∀ name ∈ Alternation.references rule.body,
        (classify rules).regular.position name < (classify rules).regular.position rule.name ∧
          P name) → P rule.name)
    (hreach : ReflTransGen (RefersTo rules) root name) : P name := by
  -- On the position, which is smaller for all names that the rule refers to.
  induction hposition : (classify rules).regular.position name
    using Nat.strong_induction_on generalizing name with
  | _ position ih =>
    obtain ⟨rule, hregular, rfl, hmarker⟩ := h name hreach
    refine hrule rule hregular hreach hmarker fun inner hinner => ?_
    obtain ⟨hreach', hlt⟩ := of_mem_references hnames h hregular hreach hinner
    exact ⟨hlt, ih _ (hposition ▸ hlt) hreach' rfl⟩

/-- More depth than names stand to the front makes no difference. -/
lemma unfold_succ (hnames : (rules.map Rule.name).Nodup) (h : CanUnfold rules root)
    (hreach : ReflTransGen (RefersTo rules) root name) :
    ∀ depth, (classify rules).regular.position name < depth →
      (classify rules).regular.unfold (depth + 1) name =
        (classify rules).regular.unfold depth name := by
  refine induction hnames h ?_ hreach
  intro rule hregular _ _ ih depth hdepth
  cases depth with
  | zero => cases hdepth
  | succ depth =>
    have hget := (get?_classify hnames).mpr ⟨hregular, rfl⟩
    simp only [RegularRules.unfold, hget]
    refine Alternation.substitute_congr rule.body fun inner hinner => ?_
    obtain ⟨hlt, hinner⟩ := ih inner hinner
    exact hinner depth (by omega)

/-- As many rules as there are is depth enough for an unfolding. -/
lemma isUnfolding_unfold (hnames : (rules.map Rule.name).Nodup) (h : CanUnfold rules root) :
    IsUnfolding rules root ((classify rules).regular.unfold (classify rules).regular.size) := by
  intro rule hrule hreach
  obtain ⟨found, hregular, hname, -⟩ := h rule.name hreach
  obtain rfl := List.inj_on_of_nodup_map hnames (regular_subset rules hregular) hrule hname
  rw [← unfold_succ hnames h hreach _ (RegularRules.position_lt_size hregular)]
  simp only [RegularRules.unfold, (get?_classify hnames).mpr ⟨hregular, rfl⟩]

/-- Any two unfoldings have the same bodies within reach. -/
lemma unfolding_unique (hnames : (rules.map Rule.name).Nodup) (h : CanUnfold rules root)
    {bodies' : String → Alternation} (hbodies : IsUnfolding rules root bodies)
    (hbodies' : IsUnfolding rules root bodies')
    (hreach : ReflTransGen (RefersTo rules) root name) : bodies name = bodies' name := by
  refine induction hnames h ?_ hreach
  intro rule hregular hreach _ ih
  have hrule := regular_subset rules hregular
  calc bodies rule.name
    _ = Alternation.substitute bodies rule.body := hbodies rule hrule hreach
    _ = Alternation.substitute bodies' rule.body :=
      Alternation.substitute_congr rule.body fun inner hinner => (ih inner hinner).2
    _ = bodies' rule.name := (hbodies' rule hrule hreach).symm

/-- Unfolded bodies refer to nothing. -/
lemma references_unfolding (hnames : (rules.map Rule.name).Nodup) (h : CanUnfold rules root)
    (hbodies : IsUnfolding rules root bodies)
    (hreach : ReflTransGen (RefersTo rules) root name) :
    Alternation.references (bodies name) = [] := by
  refine induction hnames h ?_ hreach
  intro rule hregular hreach _ ih
  rw [hbodies rule (regular_subset rules hregular) hreach, Alternation.references_substitute,
    List.flatMap_eq_nil_iff]
  exact fun inner hinner => (ih inner hinner).2

/-- The answer for a name is that for its unfolded body, but for the rule that its fault is in. -/
lemma inline_unfolding (hnames : (rules.map Rule.name).Nodup) (h : CanUnfold rules root)
    (hbodies : IsUnfolding rules root bodies)
    (hreach : ReflTransGen (RefersTo rules) root name) (options : Options) (other : String)
    (inline : String → Except ExpansionError Pattern) :
    ∀ depth user, (classify rules).regular.position name < depth →
      ((classify rules).regular.inline options depth user name).mapError (.relabel other) =
        Alternation.expand options other inline (bodies name) := by
  refine induction hnames h ?_ hreach
  intro rule hregular hreach hmarker ih depth user hdepth
  cases depth with
  | zero => cases hdepth
  | succ depth =>
    have hget := (get?_classify hnames).mpr ⟨hregular, rfl⟩
    have hresolve : (classify rules).regular.resolve user rule.name = .ok rule := by
      simp only [RegularRules.resolve, hget, hmarker]
    -- Names are inlined where they stand on the left, and put in place before on the right.
    rw [RegularRules.inline_succ hresolve, Alternation.expand_relabel,
      hbodies rule (regular_subset rules hregular) hreach, Alternation.expand_substitute]
    refine Alternation.expand_related isStable_eq (.refl options) rule.body fun inner hinner => ?_
    obtain ⟨hlt, hinner⟩ := ih inner hinner
    exact hinner depth rule.name (by omega)

end CanUnfold

/-! ### Rules without references -/

/-- A rule that refers to nothing is regular by itself. -/
lemma classify_singleton {rule : Rule} (h : Alternation.references rule.body = []) :
    (classify [rule]).regular = ⟨[rule]⟩ := by
  simp [classify, Findings.passes, Findings.pass, Findings.consider, Findings.judge?, h,
    Findings.add]

namespace RegularRules

variable {rules : List Rule} {root : String}

lemma expand_singleton (options : Options) (root : String) (body : Alternation) :
    (RegularRules.mk [⟨root, .basic, body⟩]).expand options root =
      Alternation.expand options root
        ((RegularRules.mk [⟨root, .basic, body⟩]).inline options 0 root) body := by
  have hresolve : (RegularRules.mk [⟨root, .basic, body⟩]).resolve root root =
      .ok ⟨root, .basic, body⟩ := by
    simp [resolve, get?]
  exact inline_succ hresolve

/-- The rule with the unfolded body of a root has the answer of the root. -/
lemma expand_unfolding (hnames : (rules.map Rule.name).Nodup) (h : CanUnfold rules root)
    {bodies : String → Alternation} (hbodies : IsUnfolding rules root bodies) (options : Options) :
    (classify [⟨root, .basic, bodies root⟩]).regular.expand options root =
      ((classify rules).regular.expand options root).mapError (.relabel root) := by
  have hreferences := h.references_unfolding hnames hbodies .refl
  obtain ⟨rule, hregular, rfl, -⟩ := h root .refl
  have hposition := position_lt_size hregular
  rw [classify_singleton hreferences, expand_singleton]
  exact (h.inline_unfolding hnames hbodies .refl options _ _ _ _ hposition).symm

/-- If all names within reach of a root are regular rules with basic definitions, its references can
be unfolded in one way. The body that comes of it refers to nothing. As the only rule, with any
options, it has the automaton of the root, or the fault of the root, which is then its own. -/
theorem compile_unfolding (hnames : (rules.map Rule.name).Nodup) (h : CanUnfold rules root) :
    ∃ body, (∃ bodies, IsUnfolding rules root bodies) ∧
      (∀ bodies, IsUnfolding rules root bodies → bodies root = body) ∧
      Alternation.references body = [] ∧
      ∀ options,
        (∃ nfa, (classify rules).regular.compile options root = .ok nfa ∧
          (classify [⟨root, .basic, body⟩]).regular.compile options root = .ok nfa) ∨
        ∃ fault rule,
          (classify rules).regular.compile options root =
            .error (.expansion (.faulty fault rule)) ∧
          (classify [⟨root, .basic, body⟩]).regular.compile options root =
            .error (.expansion (.faulty fault root)) := by
  have hbodies := h.isUnfolding_unfold hnames
  refine ⟨(classify rules).regular.unfold (classify rules).regular.size root, ⟨_, hbodies⟩,
    fun bodies hbodies' => ?_, ?_, fun options => ?_⟩
  · exact h.unfolding_unique hnames hbodies' hbodies .refl
  · exact h.references_unfolding hnames hbodies .refl
  · have hunfolded := expand_unfolding hnames h hbodies options
    cases hexpand : (classify rules).regular.expand options root with
    | ok pattern =>
      rw [hexpand] at hunfolded
      obtain ⟨nfa, hpattern⟩ := Nfa.exists_ofPattern? pattern
      refine .inl ⟨nfa, ?_, ?_⟩
      · simp only [compile, hexpand, hpattern]
      · simp only [compile, hunfolded, Except.mapError, hpattern]
    | error error =>
      rw [hexpand] at hunfolded
      cases error with
      | faulty fault rule =>
        refine .inr ⟨fault, rule, ?_, ?_⟩
        · simp only [compile, hexpand]
        · simp only [compile, hunfolded, Except.mapError, ExpansionError.relabel]
      | endless last =>
        have hends := not_isEndless_expand (findsOnceFrom_of_nodup hnames root) options
        exact absurd ⟨last, hexpand⟩ hends

lemma canUnfold_nestedRules : CanUnfold nestedRules "top" := by
  have hinside : ∀ rule ∈ nestedRules, rule.marker = .basic ∧
      ∀ name ∈ Alternation.references rule.body, ∃ other ∈ nestedRules, other.name = name := by
    decide
  intro name hreach
  have hname : ∃ rule ∈ nestedRules, rule.name = name := by
    cases hreach with
    | refl => exact ⟨nestedRules[0], List.mem_cons_self, rfl⟩
    | tail _ hstep =>
      obtain ⟨rule, hrule, -, hmem, -⟩ := hstep
      exact (hinside rule hrule).2 name (Rule.mem_dependencies.mp hmem)
  obtain ⟨rule, hrule, rfl⟩ := hname
  have hregular : (classify nestedRules).regular.rules = nestedRules.reverse := rfl
  rw [← List.mem_reverse, ← hregular] at hrule
  exact ⟨rule, hrule, rfl, (hinside rule (regular_subset _ hrule)).1⟩

/-- The body `2(("x") / "-" ("x"))`. -/
def unfoldedBody : Alternation :=
  [[⟨some (.count 2), .group
    [[.once (.group [[.once (.literal [0x78])]])],
      [.once (.literal [0x2D]), .once (.group [[.once (.literal [0x78])]])]]⟩]]

/-- Nested rules have the automaton of their unfolded body. -/
theorem compile_unfolding_nestedRules :
    (nestedRules.map Rule.name).Nodup ∧ CanUnfold nestedRules "top" ∧
      ∃ nfa, (classify nestedRules).regular.compile {} "top" = .ok nfa ∧
        (classify [⟨"top", .basic, unfoldedBody⟩]).regular.compile {} "top" = .ok nfa := by
  have hnames : (nestedRules.map Rule.name).Nodup := by decide
  have hunfolds := canUnfold_nestedRules
  refine ⟨hnames, hunfolds, ?_⟩
  obtain ⟨body, -, hunique, -, hcompile⟩ := compile_unfolding hnames hunfolds
  obtain rfl : unfoldedBody = body := hunique _ (hunfolds.isUnfolding_unfold hnames)
  rcases hcompile {} with hok | ⟨fault, rule, hfault, -⟩
  · exact hok
  · have hexpand : (classify nestedRules).regular.expand {} "top" =
        Alternation.expand {} "top" (fun _ => .ok .skip) unfoldedBody := rfl
    obtain ⟨nfa, hok, -⟩ := exists_compile hexpand
    rw [hok] at hfault
    cases hfault

end RegularRules

end AugmentedBnf
