import Mathlib.Data.List.Induction
import AugmentedBnf.Proofs.Grammar.RuleIndex

/-!
# Merging is grouping by name

Merging goes through the definitions one by one and keeps the rules made so far. The rules it makes
can be told from the definitions as a whole: those of one name are gathered, in their order, and the
names are put in the order in which they first occur. Merging gives up at the first basic definition
that comes behind another one of its name.

* `Definition.define?_group`: the step, from the group of some definitions to that of one more.
* `Definition.merge_cases`: the run, which ends with the group or at the first redefinition.
* `Definition.merges_by_name`: when merging succeeds, with what, and where it fails otherwise.
-/

namespace AugmentedBnf

namespace Definition

def named (definitions : List Definition) (name : String) : List Definition :=
  definitions.filter (·.rule.name == name)

/-- The rule that all definitions of a name make up. It is basic if one of them is, and it has the
branches of all of them. -/
def gather (definitions : List Definition) (name : String) : Rule where
  name := name
  marker := if (named definitions name).any (·.rule.marker == .basic) then .basic else .incremental
  body := (named definitions name).flatMap (·.rule.body)

/-- One rule for each name, in the order in which the names first occur. -/
def group (definitions : List Definition) : List Rule :=
  (definitions.map (·.rule.name)).eraseDups.map (gather definitions)

/-- No name has two basic definitions. -/
def DefinesOnce (definitions : List Definition) : Prop :=
  ∀ name, (named definitions name).countP (·.rule.marker == .basic) ≤ 1

/-- A definition is basic, and so is an earlier one of its name. -/
def Redefines (definition : Definition) (before : List Definition) : Prop :=
  definition.rule.marker = .basic ∧
    ∃ earlier ∈ before, earlier.rule.name = definition.rule.name ∧ earlier.rule.marker = .basic

def IsFirstRedefinition (definitions : List Definition) (definition : Definition) : Prop :=
  ∃ before after, definitions = before ++ definition :: after ∧ definition.Redefines before ∧
    ∀ start other rest, before = start ++ other :: rest → ¬ other.Redefines start

variable {definitions before : List Definition} {definition : Definition} {name : String}

/-- A definition leaves the rules of other names as they are. -/
lemma gather_concat_of_ne (h : definition.rule.name ≠ name) :
    gather (before ++ [definition]) name = gather before name := by
  simp [gather, named, h]

/-- A definition puts its branches behind those of its name, and it may make the rule basic. -/
lemma gather_concat_self :
    gather (before ++ [definition]) definition.rule.name =
      ⟨definition.rule.name,
        if definition.rule.marker = .basic then .basic
        else (gather before definition.rule.name).marker,
        (gather before definition.rule.name).body ++ definition.rule.body⟩ := by
  by_cases hbasic : definition.rule.marker = .basic
  · simp [gather, named, hbasic]
  · simp [gather, named, hbasic]

lemma gather_of_notMem (h : name ∉ before.map (·.rule.name)) :
    gather before name = ⟨name, .incremental, []⟩ := by
  have hnone : named before name = [] := by
    simpa [named] using h
  simp [gather, hnone]

lemma marker_gather_eq_basic :
    (gather before name).marker = .basic ↔
      ∃ earlier ∈ before, earlier.rule.name = name ∧ earlier.rule.marker = .basic := by
  simp [gather, named]

lemma redefines_iff :
    definition.Redefines before ↔
      definition.rule.marker = .basic ∧ (gather before definition.rule.name).marker = .basic := by
  rw [marker_gather_eq_basic, Redefines]

/-! ### The step -/

lemma extend?_gather_of_redefines (h : definition.Redefines before) :
    (gather before definition.rule.name).extend? definition.rule = none := by
  obtain ⟨hlater, hrule⟩ := redefines_iff.mp h
  simp [Rule.extend?, hlater, hrule]

lemma extend?_gather (h : ¬ definition.Redefines before) :
    (gather before definition.rule.name).extend? definition.rule =
      some (gather (before ++ [definition]) definition.rule.name) := by
  rw [redefines_iff] at h
  rw [gather_concat_self]
  cases hlater : definition.rule.marker with
  | basic =>
    cases hrule : (gather before definition.rule.name).marker with
    | basic => exact absurd ⟨hlater, hrule⟩ h
    | incremental =>
      simp only [Rule.extend?, hlater, hrule]
      rfl
  | incremental =>
    cases hrule : (gather before definition.rule.name).marker with
    | basic =>
      simp only [Rule.extend?, hlater, hrule]
      rfl
    | incremental =>
      simp only [Rule.extend?, hlater, hrule]
      rfl

/-- Among rules that are told by their names, which are distinct, a definition changes the rule of
its name only. -/
lemma define?_map {names : List String} {f : String → Rule} {rule : Rule}
    (hf : ∀ name, (f name).name = name) (hnames : names.Nodup) (hmem : rule.name ∈ names) :
    Rule.define? (names.map f) rule =
      ((f rule.name).extend? rule).map fun extended =>
        names.map fun name => if name = rule.name then extended else f name := by
  induction names with
  | nil => simp at hmem
  | cons first names ih =>
    obtain ⟨hfirst, hnames⟩ := List.nodup_cons.mp hnames
    rw [List.map_cons, Rule.define?, hf]
    by_cases hname : first = rule.name
    · subst hname
      rw [if_pos rfl]
      congr 1
      funext extended
      -- The names are distinct, so no rule behind this one is told by its name.
      have hothers : ∀ name ∈ names, f name = if name = rule.name then extended else f name := by
        intro name hname
        rw [if_neg]
        rintro rfl
        exact hfirst hname
      rw [List.map_cons, if_pos rfl, List.map_congr_left hothers]
    · have hmem := (List.mem_cons.mp hmem).resolve_left (Ne.symm hname)
      rw [if_neg hname, ih hnames hmem, Option.map_map]
      congr 1
      funext extended
      simp [hname]

lemma names_group : (group definitions).map Rule.name =
    (definitions.map (·.rule.name)).eraseDups := by
  simp [group, gather, Function.comp_def]

lemma eraseDups_concat {names : List String} :
    (names ++ [name]).eraseDups =
      if name ∈ names then names.eraseDups else names.eraseDups ++ [name] := by
  rw [List.eraseDups_append]
  by_cases h : name ∈ names
  · simp [List.removeAll, h]
  · simp [List.removeAll, h, List.eraseDups_cons]

/-- The first definition of a name makes up its rule. -/
lemma gather_concat_of_notMem (h : definition.rule.name ∉ before.map (·.rule.name)) :
    gather (before ++ [definition]) definition.rule.name = definition.rule := by
  rw [gather_concat_self, gather_of_notMem h]
  obtain ⟨⟨name, marker, body⟩, offset⟩ := definition
  cases marker with
  | basic => rfl
  | incremental => rfl

/-- One more definition that does not redefine its rule turns a group into the group with it. -/
lemma define?_group (hnames : ((group before).map Rule.name).Nodup)
    (h : ¬ definition.Redefines before) :
    Rule.define? (group before) definition.rule = some (group (before ++ [definition])) := by
  rw [names_group] at hnames
  by_cases hmem : definition.rule.name ∈ before.map (·.rule.name)
  · -- The name has a rule already, and it is changed in its place.
    have hgather : ∀ name ∈ (before.map (·.rule.name)).eraseDups,
        (if name = definition.rule.name then
            gather (before ++ [definition]) definition.rule.name else gather before name) =
          gather (before ++ [definition]) name := by
      intro name _
      split_ifs with hname
      · rw [hname]
      · exact (gather_concat_of_ne (Ne.symm hname)).symm
    rw [group, define?_map (fun _ => rfl) hnames (List.mem_eraseDups.mpr hmem), extend?_gather h,
      Option.map_some, List.map_congr_left hgather, group, List.map_append, List.map_singleton,
      eraseDups_concat, if_pos hmem]
  · -- The name is new, and its rule goes to the end.
    have hgather : ∀ name ∈ (before.map (·.rule.name)).eraseDups,
        gather before name = gather (before ++ [definition]) name := by
      intro name hname
      refine (gather_concat_of_ne fun heq => hmem ?_).symm
      rw [heq]
      exact List.mem_eraseDups.mp hname
    have hnew : definition.rule.name ∉ (group before).map Rule.name := by
      rwa [names_group, List.mem_eraseDups]
    rw [Rule.define?_of_notMem hnew, group, List.map_congr_left hgather, group, List.map_append,
      List.map_singleton, eraseDups_concat, if_neg hmem, List.map_append, List.map_singleton,
      gather_concat_of_notMem hmem]

lemma define?_group_of_redefines (hnames : ((group before).map Rule.name).Nodup)
    (h : definition.Redefines before) : Rule.define? (group before) definition.rule = none := by
  rw [names_group] at hnames
  have hmem : definition.rule.name ∈ before.map (·.rule.name) := by
    obtain ⟨-, earlier, hearlier, hname, -⟩ := h
    exact hname ▸ List.mem_map_of_mem hearlier
  rw [group, define?_map (fun _ => rfl) hnames (List.mem_eraseDups.mpr hmem),
    extend?_gather_of_redefines h, Option.map_none]

/-! ### The run -/

lemma merge_concat :
    merge (before ++ [definition]) = merge before >>= fun rules => addTo rules definition := by
  rw [merge_eq_foldlM, List.foldlM_append, merge_eq_foldlM]
  congr 1
  funext rules
  exact bind_pure (addTo rules definition)

lemma merge_append_of_error {after : List Definition} (h : merge before = .error definition) :
    merge (before ++ after) = .error definition := by
  rw [merge_eq_foldlM, List.foldlM_append, ← merge_eq_foldlM, h]
  rfl

lemma merge_concat_of_redefines (hmerge : merge before = .ok (group before))
    (h : definition.Redefines before) : merge (before ++ [definition]) = .error definition := by
  rw [merge_concat, hmerge]
  simp only [bind, Except.bind, addTo, define?_group_of_redefines (nodup_merge hmerge) h]

lemma merge_concat_of_not_redefines (hmerge : merge before = .ok (group before))
    (h : ¬ definition.Redefines before) :
    merge (before ++ [definition]) = .ok (group (before ++ [definition])) := by
  rw [merge_concat, hmerge]
  simp only [bind, Except.bind, addTo, define?_group (nodup_merge hmerge) h]

lemma countP_named_concat :
    (named (before ++ [definition]) name).countP (·.rule.marker == .basic) =
      (named before name).countP (·.rule.marker == .basic) +
        if definition.rule.name = name ∧ definition.rule.marker = .basic then 1 else 0 := by
  by_cases hname : definition.rule.name = name
  · by_cases hbasic : definition.rule.marker = .basic
    · simp [named, hname, hbasic]
    · simp [named, hname, hbasic]
  · simp [named, hname]

lemma redefines_iff_countP :
    definition.Redefines before ↔ definition.rule.marker = .basic ∧
      0 < (named before definition.rule.name).countP (·.rule.marker == .basic) := by
  simp [Redefines, named, List.countP_pos_iff, and_assoc]

lemma definesOnce_concat :
    DefinesOnce (before ++ [definition]) ↔
      DefinesOnce before ∧ ¬ definition.Redefines before := by
  simp only [DefinesOnce, countP_named_concat, redefines_iff_countP]
  constructor
  · intro h
    refine ⟨fun name => Nat.le_of_add_right_le (h name), fun hredefines => ?_⟩
    have hown := h definition.rule.name
    rw [if_pos ⟨rfl, hredefines.1⟩] at hown
    omega
  · intro h name
    obtain ⟨hbefore, hredefines⟩ := h
    split_ifs with hown
    · obtain ⟨rfl, hbasic⟩ := hown
      have hnone := Nat.eq_zero_of_not_pos fun hpos => hredefines ⟨hbasic, hpos⟩
      omega
    · exact hbefore name

lemma DefinesOnce.of_append {after : List Definition} (h : DefinesOnce (before ++ after)) :
    DefinesOnce before := by
  intro name
  have hname := h name
  simp only [named, List.filter_append, List.countP_append] at hname
  exact Nat.le_of_add_right_le hname

lemma IsFirstRedefinition.not_definesOnce (h : IsFirstRedefinition definitions definition) :
    ¬ DefinesOnce definitions := by
  obtain ⟨before, after, rfl, hredefines, -⟩ := h
  intro honce
  rw [List.append_cons] at honce
  exact (definesOnce_concat.mp honce.of_append).2 hredefines

/-- Merging succeeds if no name has two basic definitions, and stops at the first redefinition
otherwise. -/
lemma merge_cases (definitions : List Definition) :
    DefinesOnce definitions ∧ merge definitions = .ok (group definitions) ∨
      ∃ definition, IsFirstRedefinition definitions definition ∧
        merge definitions = .error definition := by
  induction definitions using List.reverseRecOn with
  | nil =>
    refine .inl ⟨?_, rfl⟩
    simp [DefinesOnce, named]
  | append_singleton before definition ih =>
    obtain ⟨honce, hmerge⟩ | ⟨first, hfirst, hmerge⟩ := ih
    · by_cases hredefines : definition.Redefines before
      · refine .inr ⟨definition, ⟨before, [], rfl, hredefines, ?_⟩,
          merge_concat_of_redefines hmerge hredefines⟩
        rintro start other rest rfl
        rw [List.append_cons] at honce
        exact (definesOnce_concat.mp honce.of_append).2
      · exact .inl ⟨definesOnce_concat.mpr ⟨honce, hredefines⟩,
          merge_concat_of_not_redefines hmerge hredefines⟩
    · obtain ⟨start, after, rfl, hredefines, hnone⟩ := hfirst
      refine .inr ⟨first, ⟨start, after ++ [definition], ?_, hredefines, hnone⟩,
        merge_append_of_error hmerge⟩
      rw [List.append_assoc, List.cons_append]

lemma merge_eq_error :
    merge definitions = .error definition ↔ IsFirstRedefinition definitions definition := by
  constructor
  · intro h
    obtain ⟨-, hmerge⟩ | ⟨first, hfirst, hmerge⟩ := merge_cases definitions
    · rw [hmerge] at h
      cases h
    · rw [hmerge] at h
      obtain rfl := Except.error.inj h
      exact hfirst
  · intro h
    obtain ⟨before, after, rfl, hredefines, hnone⟩ := h
    obtain ⟨-, hmerge⟩ | ⟨other, ⟨start, rest, heq, hother, -⟩, -⟩ := merge_cases before
    · rw [List.append_cons]
      exact merge_append_of_error (merge_concat_of_redefines hmerge hredefines)
    · exact absurd hother (hnone start other rest heq)

/-- Merging succeeds exactly if no name has two basic definitions, and then gives one rule for each
name. Otherwise it fails at the first redefinition, and a document with these definitions is
refused with the name of the rule and the position of the redefinition. All of this holds of merging
along an index, too, whatever the definitions are. -/
theorem merges_by_name (definitions : List Definition) :
    ((∃ rules, merge definitions = .ok rules) ↔ DefinesOnce definitions) ∧
    (∀ rules, merge definitions = .ok rules → rules = group definitions) ∧
    (∀ definition, merge definitions = .error definition ↔
      IsFirstRedefinition definitions definition) ∧
    (∀ document, Reader.definitions document = .ok definitions → ∀ error,
      Grammar.read document = .error error ↔
        ∃ definition, IsFirstRedefinition definitions definition ∧
          error = .collision definition.rule.name (Position.locate document definition.offset)) ∧
    ∀ document,
      ((∃ index, RuleIndex.merge document definitions = .ok index) ↔ DefinesOnce definitions) ∧
      (∀ index, RuleIndex.merge document definitions = .ok index →
        index.rules = group definitions) ∧
      ∀ error, RuleIndex.merge document definitions = .error error ↔
        ∃ definition, IsFirstRedefinition definitions definition ∧
          error = .collision definition.rule.name (Position.locate document definition.offset) := by
  refine ⟨?_, fun rules h => ?_, fun definition => merge_eq_error, fun document h error => ?_,
    fun document => ?_⟩
  · obtain ⟨honce, hmerge⟩ | ⟨definition, hfirst, hmerge⟩ := merge_cases definitions
    · simp [honce, hmerge]
    · simp [hfirst.not_definesOnce, hmerge]
  · obtain ⟨-, hmerge⟩ | ⟨definition, -, hmerge⟩ := merge_cases definitions
    · rw [hmerge] at h
      exact (Except.ok.inj h).symm
    · rw [hmerge] at h
      cases h
  · simp only [Grammar.read, h, ← merge_eq_error]
    cases merge definitions with
    | ok rules => simp
    | error definition => simp [eq_comm]
  · -- Along an index, the outcome is that of merging, and its errors are positions already.
    obtain ⟨index, hindex, hmerge⟩ | ⟨definition, hindex, hmerge⟩ :=
      RuleIndex.merge_cases document definitions
    · obtain ⟨honce, hgroup⟩ | ⟨definition, -, hgroup⟩ := merge_cases definitions
      · have hrules : group definitions = index.rules := Except.ok.inj (hgroup.symm.trans hmerge)
        have hnone : ∀ definition, ¬ IsFirstRedefinition definitions definition :=
          fun definition hfirst => hfirst.not_definesOnce honce
        simp [hindex, honce, hnone, hrules]
      · rw [hmerge] at hgroup
        cases hgroup
    · have hfirst : IsFirstRedefinition definitions definition := merge_eq_error.mp hmerge
      refine ⟨?_, fun index h => ?_, fun error => ?_⟩
      · simp [hindex, hfirst.not_definesOnce]
      · rw [hindex] at h
        cases h
      · simp [hindex, ← merge_eq_error, hmerge, eq_comm]

/-- A basic definition between incremental ones makes the rule basic, in the place of the first. -/
example (one two three : Concatenation) :
    merge [⟨⟨"a", .incremental, [one]⟩, 0⟩, ⟨⟨"b", .incremental, [two]⟩, 10⟩,
      ⟨⟨"a", .basic, [three]⟩, 20⟩, ⟨⟨"a", .incremental, [two, one]⟩, 30⟩] =
      .ok [⟨"a", .basic, [one, three, two, one]⟩, ⟨"b", .incremental, [two]⟩] := rfl

end Definition

end AugmentedBnf
