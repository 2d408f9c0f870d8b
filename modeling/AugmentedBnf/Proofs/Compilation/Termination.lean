import Mathlib.Data.List.Nodup
import Mathlib.Data.List.Perm.Subperm
import AugmentedBnf.Compilation
import AugmentedBnf.Proofs.Expansion.Inlining

/-!
# Compilation ends

A regular rule refers to names that are found before it. If a name is found once, this is where its
rule is looked up, so that the rules an expansion is inside of stand further and further to the
front, and the expansion ends.

If a name is found more than once, its rule is looked up where it is found last, which may be behind
the rules that refer to it. Then rules may be inside of each other without an end.

* `RegularRules.inlining_descends`: where names are defined once, every expansion ends.
* `RegularRules.inlining_ends_of_findsOnce`: an expansion ends if the names it comes to are found
  once.
* `RegularRules.endless_repeatedName`: it need not end otherwise.
-/

namespace AugmentedBnf

open Relation

/-- The rule of the one name refers to the other, of which there is a rule, too. -/
def RegularRules.Inlines (regular : RegularRules) (source target : String) : Prop :=
  ∃ rule, regular.get? source = some rule ∧ target ∈ rule.dependencies ∧ regular.contains target

/-- How many rules there are before the first one of a name. -/
def RegularRules.position (regular : RegularRules) (name : String) : Nat :=
  (regular.rules.map Rule.name).idxOf name

def Classification.FindsOnce (classification : Classification) (name : String) : Prop :=
  (classification.found.map Rule.name).count name ≤ 1

/-- The names that an expansion comes to from a root are found once at most. -/
def Classification.FindsOnceFrom (classification : Classification) (root : String) : Prop :=
  ∀ name, ReflTransGen classification.regular.Inlines root name → classification.FindsOnce name

namespace RegularRules

variable {rules : List Rule} {options : Options} {root source target : String} {stack : List Rule}

/-- A name found once stands behind the names that its rule refers to, if these are found once. -/
lemma position_lt_of_inlines (hsource : (classify rules).FindsOnce source)
    (htarget : (classify rules).FindsOnce target)
    (h : (classify rules).regular.Inlines source target) :
    (classify rules).regular.position target < (classify rules).regular.position source := by
  obtain ⟨rule, hrule, hmem, hcontains⟩ := h
  obtain ⟨hregular, rfl⟩ := name_of_get? hrule
  obtain ⟨before, after, heq⟩ := List.append_of_mem hregular
  have hearlier : target ∈ before.map Rule.name := by
    rcases classify_regular_eq_append heq hmem with ⟨earlier, hearlier, rfl⟩ | ⟨other, hother, rfl⟩
    · exact List.mem_map_of_mem hearlier
    · -- In the second case the name would be found twice, among either kind of rules.
      obtain ⟨found, hfound⟩ := contains_iff.mp hcontains
      obtain ⟨hfound, hname⟩ := name_of_get? hfound
      have hone := List.count_pos_iff.mpr (List.mem_map_of_mem (f := Rule.name) hfound)
      have htwo := List.count_pos_iff.mpr (List.mem_map_of_mem (f := Rule.name) hother)
      rw [hname] at hone
      simp only [Classification.FindsOnce, Classification.found, List.map_append,
        List.count_append] at htarget
      omega
  have hlater : rule.name ∉ before.map Rule.name := by
    intro hbefore
    have hone := List.count_pos_iff.mpr hbefore
    simp only [Classification.FindsOnce, Classification.found, heq, List.map_append, List.map_cons,
      List.count_append, List.count_cons_self] at hsource
    omega
  rw [position, position, heq, List.map_append, List.idxOf_append_of_mem hearlier,
    List.idxOf_append_of_notMem hlater, List.map_cons, List.idxOf_cons_self]
  simpa using List.idxOf_lt_length_of_mem hearlier

/-- If no name on the way is found twice, no way leads back to where it began. -/
lemma position_lt_of_transGen
    (honce : (classify rules).FindsOnceFrom source)
    (h : TransGen (classify rules).regular.Inlines source target) :
    (classify rules).regular.position target < (classify rules).regular.position source := by
  induction h with
  | single hstep => exact position_lt_of_inlines (honce _ .refl) (honce _ (.single hstep)) hstep
  | tail hpath hstep ih =>
    have hreach := hpath.to_reflTransGen
    have hlt := position_lt_of_inlines (honce _ hreach) (honce _ (hreach.tail hstep)) hstep
    exact Nat.lt_trans hlt ih

/-- The rules of a stack are looked up by their names, which can be reached from the root. -/
lemma IsStack.reachable {regular : RegularRules} (h : regular.IsStack root stack) :
    ∀ rule ∈ stack, regular.get? rule.name = some rule ∧
      ReflTransGen regular.Inlines root rule.name := by
  induction h with
  | empty => simp
  | @push stack name rule hstack hname hrule ih =>
    rw [List.forall_mem_cons]
    refine ⟨⟨get?_name hrule, ?_⟩, ih⟩
    obtain rfl := (name_of_get? hrule).2
    cases stack with
    | nil => rw [show rule.name = root from hname]
    | cons outer rest =>
      obtain ⟨houter, hreach⟩ := ih outer List.mem_cons_self
      exact hreach.tail ⟨outer, houter, hname, contains_iff.mpr ⟨rule, hrule⟩⟩

/-- The rules of a stack stand further to the front the further inside they are. -/
lemma IsStack.pairwise_position
    (honce : (classify rules).FindsOnceFrom root)
    (h : (classify rules).regular.IsStack root stack) :
    stack.Pairwise fun inner outer =>
      (classify rules).regular.position inner.name <
        (classify rules).regular.position outer.name := by
  induction h with
  | empty => exact .nil
  | @push stack name rule hstack hname hrule ih =>
    -- The new rule is further to the front than the innermost one, and so than all others.
    cases stack with
    | nil => exact List.pairwise_singleton _ _
    | cons outer rest =>
      obtain ⟨houter, hreach⟩ := hstack.reachable outer List.mem_cons_self
      obtain rfl := (name_of_get? hrule).2
      have hstep : (classify rules).regular.Inlines outer.name rule.name :=
        ⟨outer, houter, hname, contains_iff.mpr ⟨rule, hrule⟩⟩
      have hlt := position_lt_of_inlines (honce _ hreach) (honce _ (hreach.tail hstep)) hstep
      refine List.pairwise_cons.mpr ⟨?_, ih⟩
      rw [List.forall_mem_cons]
      exact ⟨hlt, fun other hother => Nat.lt_trans hlt ((List.pairwise_cons.mp ih).1 other hother)⟩

lemma IsStack.nodup_names
    (honce : (classify rules).FindsOnceFrom root)
    (h : (classify rules).regular.IsStack root stack) : (stack.map Rule.name).Nodup := by
  rw [List.nodup_iff_pairwise_ne, List.pairwise_map]
  refine (h.pairwise_position honce).imp ?_
  intro inner outer hlt heq
  rw [heq] at hlt
  exact Nat.lt_irrefl _ hlt

lemma IsStack.length_le_size
    (honce : (classify rules).FindsOnceFrom root)
    (h : (classify rules).regular.IsStack root stack) :
    stack.length ≤ (classify rules).regular.size := by
  have hsubset : stack.map Rule.name ⊆ (classify rules).regular.rules.map Rule.name := by
    refine List.map_subset _ fun rule hrule => ?_
    exact (name_of_get? (h.reachable rule hrule).1).1
  have hle := ((h.nodup_names honce).subperm hsubset).length_le
  rwa [List.length_map, List.length_map] at hle

/-! ### Expansions -/

lemma expand_eq_of_compile {regular : RegularRules} {error : ExpansionError}
    (h : regular.compile options root = .error (.expansion error)) :
    regular.expand options root = .error error := by
  unfold compile at h
  split at h
  · next hexpand =>
    cases h
    exact hexpand
  · split at h <;> cases h

lemma isEndless_expand_of_compile {regular : RegularRules} {last : String}
    (h : regular.compile options root = .error (.expansion (.endless last))) :
    IsEndless (regular.expand options root) := ⟨last, expand_eq_of_compile h⟩

/-- The depth of an expansion is not used up if the names it comes to are found once. -/
lemma not_isEndless_expand
    (honce : (classify rules).FindsOnceFrom root) (options : Options) :
    ¬ IsEndless ((classify rules).regular.expand options root) := by
  intro hendless
  obtain ⟨stack, hstack, hlength⟩ := exists_isStack_of_endless .empty rfl hendless
  have hle := hstack.length_le_size honce
  simp only [List.length_nil] at hlength
  omega

/-- An expansion that is not endless is the same at any greater depth. -/
lemma inline_eq_expand {regular : RegularRules} {depth : Nat} (hdepth : regular.size ≤ depth)
    (h : ¬ IsEndless (regular.expand options root)) :
    regular.inline options depth root root = regular.expand options root := by
  obtain ⟨more, rfl⟩ := Nat.exists_eq_add_of_le hdepth
  exact ((refines_inline more).resolve_left h).symm

lemma findsOnceFrom_of_nodup (hnames : (rules.map Rule.name).Nodup) (root : String) :
    (classify rules).FindsOnceFrom root := by
  intro name _
  have hnodup := nodup_names_classify hnames
  rw [List.map_append] at hnodup
  exact List.nodup_iff_count_le_one.mp hnodup.of_append_left name

/-- Where names are defined once, the rules that an expansion is inside of stand further and further
to the front among the regular rules. So there are no more of them than regular rules, and none
twice, and an expansion that goes into no other rules is the whole one. Hence every compilation ends
with an automaton or a fault, and more depth than there is would change nothing. -/
theorem inlining_descends (hnames : (rules.map Rule.name).Nodup) :
    (∀ root stack, (classify rules).regular.IsStack root stack →
      (stack.Pairwise fun inner outer =>
        (classify rules).regular.position inner.name <
          (classify rules).regular.position outer.name) ∧
      (stack.map Rule.name).Nodup ∧ stack.length ≤ (classify rules).regular.size) ∧
    (∀ options depth root,
      (classify rules).regular.inlineWithin
        (fun stack => stack.Pairwise fun inner outer =>
          (classify rules).regular.position inner.name <
            (classify rules).regular.position outer.name)
        options depth [] root root =
      (classify rules).regular.inline options depth root root) ∧
    ∀ options root,
      (∀ last, (classify rules).regular.compile options root ≠
        .error (.expansion (.endless last))) ∧
      ∀ depth, (classify rules).regular.size ≤ depth →
        (classify rules).regular.inline options depth root root =
          (classify rules).regular.expand options root := by
  have honce := findsOnceFrom_of_nodup hnames
  refine ⟨fun root stack hstack => ?_, fun options depth root => ?_, fun options root => ?_⟩
  · exact ⟨hstack.pairwise_position (honce root), hstack.nodup_names (honce root),
      hstack.length_le_size (honce root)⟩
  · exact inlineWithin_eq_inline (fun stack hstack => hstack.pairwise_position (honce root))
      .empty rfl
  · have hends := not_isEndless_expand (honce root) options
    exact ⟨fun last h => hends (isEndless_expand_of_compile h),
      fun depth hdepth => inline_eq_expand hdepth hends⟩

/-- The rules `top = 2middle`, `middle = leaf / "-" leaf` and `leaf = "x"`. -/
def nestedRules : List Rule :=
  [⟨"top", .basic, [[⟨some (.count 2), .reference "middle"⟩]]⟩,
    ⟨"middle", .basic, [[.once (.reference "leaf")],
      [.once (.literal [0x2D]), .once (.reference "leaf")]]⟩,
    ⟨"leaf", .basic, [[.once (.literal [0x78])]]⟩]

/-- All three rules are inside of each other, and found in reverse. -/
theorem inlining_descends_nestedRules :
    (nestedRules.map Rule.name).Nodup ∧
      (classify nestedRules).regular.IsStack "top" nestedRules.reverse ∧
      (nestedRules.reverse.Pairwise fun inner outer =>
        (classify nestedRules).regular.position inner.name <
          (classify nestedRules).regular.position outer.name) ∧
      nestedRules.reverse.length ≤ (classify nestedRules).regular.size ∧
      (classify nestedRules).regular.inlineWithin
        (fun stack => stack.Pairwise fun inner outer =>
          (classify nestedRules).regular.position inner.name <
            (classify nestedRules).regular.position outer.name)
        {} 3 [] "top" "top" = (classify nestedRules).regular.inline {} 3 "top" "top" ∧
      ∀ last, (classify nestedRules).regular.compile {} "top" ≠
        .error (.expansion (.endless last)) := by
  have hnames : (nestedRules.map Rule.name).Nodup := by decide
  have hmiddle : LooksUp "top" [nestedRules[0]] "middle" := Rule.mem_dependencies.mpr (by decide)
  have hleaf : LooksUp "top" [nestedRules[1], nestedRules[0]] "leaf" :=
    Rule.mem_dependencies.mpr (by decide)
  have hstack : (classify nestedRules).regular.IsStack "top" nestedRules.reverse :=
    ((IsStack.empty.push rfl rfl).push hmiddle rfl).push hleaf rfl
  obtain ⟨hdescends, hwithin, hends⟩ := inlining_descends hnames
  obtain ⟨hpairwise, -, hlength⟩ := hdescends "top" _ hstack
  exact ⟨hnames, hstack, hpairwise, hlength, hwithin {} 3 "top", (hends {} "top").1⟩

/-! ### Names found more than once -/

/-- An expansion ends if the names it comes to are found once, whatever other rules there are. -/
theorem inlining_ends_of_findsOnce
    (honce : (classify rules).FindsOnceFrom root) :
    (∀ name, ReflTransGen (classify rules).regular.Inlines root name →
      ¬ TransGen (classify rules).regular.Inlines name name) ∧
    ∀ options,
      (∀ last, (classify rules).regular.compile options root ≠
        .error (.expansion (.endless last))) ∧
      ∀ depth, (classify rules).regular.size ≤ depth →
        (classify rules).regular.inline options depth root root =
          (classify rules).regular.expand options root := by
  refine ⟨fun name hreach hcycle => ?_, fun options => ?_⟩
  · have honce' := fun other hother => honce other (hreach.trans hother)
    have hlt := position_lt_of_transGen honce' hcycle
    exact Nat.lt_irrefl _ hlt
  · have hends := not_isEndless_expand honce options
    exact ⟨fun last h => hends (isEndless_expand_of_compile h),
      fun depth hdepth => inline_eq_expand hdepth hends⟩

/-- The rules `c = 2d`, `d = "y"`, `a = b`, `b = a` and `a = "x"`. -/
def repeatedNameBeside : List Rule :=
  [⟨"c", .basic, [[⟨some (.count 2), .reference "d"⟩]]⟩,
    ⟨"d", .basic, [[.once (.literal [0x79])]]⟩,
    ⟨"a", .basic, [[.once (.reference "b")]]⟩,
    ⟨"b", .basic, [[.once (.reference "a")]]⟩,
    ⟨"a", .basic, [[.once (.literal [0x78])]]⟩]

lemma findsOnceFrom_repeatedNameBeside : (classify repeatedNameBeside).FindsOnceFrom "c" := by
  have hreach : ∀ name, ReflTransGen (classify repeatedNameBeside).regular.Inlines "c" name →
      name = "c" ∨ name = "d" := by
    intro name hname
    induction hname with
    | refl => exact .inl rfl
    | tail _ hstep ih =>
      obtain ⟨rule, hrule, hmem, -⟩ := hstep
      rw [Rule.mem_dependencies] at hmem
      rcases ih with rfl | rfl
      · obtain rfl : repeatedNameBeside[0] = rule := Option.some.inj hrule
        exact .inr (List.mem_singleton.mp hmem)
      · obtain rfl : repeatedNameBeside[1] = rule := Option.some.inj hrule
        exact absurd hmem List.not_mem_nil
  intro name hname
  unfold Classification.FindsOnce
  rcases hreach name hname with rfl | rfl
  · decide
  · decide

/-- The name that is found twice does no harm to a root that does not lead to it. -/
theorem inlining_ends_repeatedNameBeside :
    (classify repeatedNameBeside).FindsOnceFrom "c" ∧
      ¬ TransGen (classify repeatedNameBeside).regular.Inlines "c" "c" ∧
      ∀ last, (classify repeatedNameBeside).regular.compile {} "c" ≠
        .error (.expansion (.endless last)) := by
  have honce := findsOnceFrom_repeatedNameBeside
  obtain ⟨hacyclic, hends⟩ := inlining_ends_of_findsOnce honce
  exact ⟨honce, hacyclic "c" .refl, (hends {}).1⟩

/-- The rules `a = b`, `b = a` and `a = "x"`. -/
def repeatedName : List Rule :=
  [⟨"a", .basic, [[.once (.reference "b")]]⟩,
    ⟨"b", .basic, [[.once (.reference "a")]]⟩,
    ⟨"a", .basic, [[.once (.literal [0x78])]]⟩]

/-- The last rule lets the second one be found, and this one the first, which takes the place of the
last. Now both names stand for each other, and no depth is enough for either. -/
theorem endless_repeatedName :
    TransGen (classify repeatedName).regular.Inlines "a" "a" ∧
      ∀ options depth,
        IsEndless ((classify repeatedName).regular.inline options depth "a" "a") := by
  constructor
  · have hb : (classify repeatedName).regular.Inlines "a" "b" :=
      ⟨repeatedName[0], rfl, Rule.mem_dependencies.mpr (by decide), by decide⟩
    have ha : (classify repeatedName).regular.Inlines "b" "a" :=
      ⟨repeatedName[1], rfl, Rule.mem_dependencies.mpr (by decide), by decide⟩
    exact .tail (.single hb) ha
  · intro options depth
    have hendless : ∀ rule,
        IsEndless ((classify repeatedName).regular.inline options depth rule "a") ∧
          IsEndless ((classify repeatedName).regular.inline options depth rule "b") := by
      induction depth with
      | zero => exact fun rule => ⟨⟨"a", rfl⟩, ⟨"b", rfl⟩⟩
      | succ depth ih => exact fun rule => ⟨(ih "a").2, (ih "b").1⟩
    exact (hendless "a").1

end RegularRules

end AugmentedBnf
