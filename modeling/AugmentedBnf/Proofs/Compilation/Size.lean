import AugmentedBnf.Proofs.Classification.Reachability
import AugmentedBnf.Proofs.Compilation.Language
import AugmentedBnf.Proofs.Expansion.Size

/-!
# The size of compilations

Repetitions are spelled out and references are replaced by bodies, so the number of states of an
automaton grows with both. It can be told without building the automaton: regular rules refer to
rules found before them, and in this order the states of each of them are counted once.

* `RegularRules.counts_eq_states`: the count for a rule is that of its body.
* `RegularRules.compile_size`: an automaton has the states of the body of its rule and two more.
-/

namespace AugmentedBnf

namespace RegularRules

/-- The counts for the names of rules, each of them made when those before it are. -/
def countRules (options : Options) (rules : List Rule) : String → Nat :=
  rules.foldl (fun counts rule =>
    Function.update counts rule.name (Alternation.states options counts rule.body)) fun _ => 0

/-- The states between the entry and the exit of what a name stands for. -/
def counts (regular : RegularRules) (options : Options) : String → Nat :=
  countRules options regular.rules

variable {rules : List Rule} {options : Options} {root : String} {nfa : Nfa}

lemma countRules_concat (rules : List Rule) (rule : Rule) :
    countRules options (rules ++ [rule]) = Function.update (countRules options rules) rule.name
      (Alternation.states options (countRules options rules) rule.body) := by
  rw [countRules, List.foldl_append]
  rfl

/-- A count does not change any more when those for later rules are made. -/
lemma counts_eq_states (hnames : (rules.map Rule.name).Nodup) :
    ∀ rule ∈ (classify rules).regular.rules, (classify rules).regular.counts options rule.name =
      Alternation.states options ((classify rules).regular.counts options) rule.body := by
  -- The induction is on the rules from the last one, which none of those before refers to.
  suffices h : ∀ before after, (classify rules).regular.rules = before ++ after →
      ∀ rule ∈ before, countRules options before rule.name =
        Alternation.states options (countRules options before) rule.body from
    h _ [] (List.append_nil _).symm
  intro before
  induction before using List.reverseRecOn with
  | nil => simp
  | append_singleton before last ih =>
    intro after heq
    rw [List.append_assoc, List.singleton_append] at heq
    have hlast : ∀ rule ∈ before ++ [last], last.name ∉ rule.dependencies := by
      refine List.forall_mem_append.mpr ⟨fun rule hrule => ?_, ?_⟩
      · obtain ⟨front, between, rfl⟩ := List.append_of_mem hrule
        rw [List.append_assoc, List.cons_append] at heq
        exact notMem_dependencies_of_later hnames heq (by simp)
      · rw [List.forall_mem_singleton]
        exact notMem_dependencies_of_later hnames heq List.mem_cons_self
    have hbody : ∀ rule ∈ before ++ [last],
        Alternation.states options (countRules options (before ++ [last])) rule.body =
          Alternation.states options (countRules options before) rule.body := by
      intro rule hrule
      refine Alternation.states_congr rule.body fun name hname => ?_
      have hne : name ≠ last.name := by
        rintro rfl
        exact hlast rule hrule (Rule.mem_dependencies.mpr hname)
      rw [countRules_concat, Function.update_of_ne hne]
    intro rule hrule
    rw [hbody rule hrule, countRules_concat]
    rcases List.mem_append.mp hrule with hbefore | hsame
    · have hne : rule.name ≠ last.name := by
        have hnodup := nodup_names_regular hnames
        rw [heq, List.map_append, List.map_cons, List.nodup_append'] at hnodup
        exact fun hname => hnodup.2.2 (List.mem_map_of_mem hbefore) (hname ▸ List.mem_cons_self)
      rw [Function.update_of_ne hne]
      exact ih _ heq rule hbefore
    · rw [List.mem_singleton.mp hsame, Function.update_self]

/-- If the count for every rule is that of its body, an automaton has as many states as are counted
on the body of its rule, and besides these its entry and its exit. -/
lemma size_of_counts {counts : String → Nat}
    (hcounts : ∀ rule ∈ (classify rules).regular.rules,
      counts rule.name = Alternation.states options counts rule.body)
    (hcompile : (classify rules).regular.compile options root = .ok nfa) :
    ∃ rule ∈ (classify rules).regular.rules, rule.name = root ∧
      nfa.size = 2 + Alternation.states options counts rule.body := by
  obtain ⟨pattern, hexpand, hpattern⟩ := compile_eq_ok hcompile
  rw [Nfa.size_ofPattern? hpattern]
  suffices h : ∃ rule ∈ (classify rules).regular.rules, rule.name = root ∧
      pattern.innerStates = Alternation.states options counts rule.body by
    obtain ⟨rule, hrule, hname, hstates⟩ := h
    exact ⟨rule, hrule, hname, by rw [hstates]⟩
  refine inline_induction (P := fun name pattern => ∃ rule ∈ (classify rules).regular.rules,
    rule.name = name ∧ pattern.innerStates = Alternation.states options counts rule.body) ?_ _ root
    root pattern hexpand
  intro found hfound inline hinline pattern hbody
  refine ⟨found, hfound, rfl, ?_⟩
  refine Alternation.innerStates_expand (fun name pattern h => ?_) found.body pattern hbody
  obtain ⟨rule, hrule, rfl, hstates⟩ := hinline name pattern h
  rw [hstates, hcounts rule hrule]

/-- Where names are defined once, there are counts for all regular rules, that is, the count for a
rule is what is counted on its body if the names in it are counted so in turn. An automaton has as
many states as are counted on the body of its rule, and besides these its entry and its exit. -/
theorem compile_size (hnames : (rules.map Rule.name).Nodup)
    (hcompile : (classify rules).regular.compile options root = .ok nfa) :
    (∀ rule ∈ (classify rules).regular.rules,
      (classify rules).regular.counts options rule.name =
        Alternation.states options ((classify rules).regular.counts options) rule.body) ∧
    ∀ counts : String → Nat,
      (∀ rule ∈ (classify rules).regular.rules,
        counts rule.name = Alternation.states options counts rule.body) →
      ∃ rule ∈ (classify rules).regular.rules, rule.name = root ∧
        nfa.size = 2 + Alternation.states options counts rule.body :=
  ⟨counts_eq_states hnames, fun _ hcounts => size_of_counts hcounts hcompile⟩

/-- The rules `frame = 2*4field ":" 0loop`, `field = 3digit / *"ab"`, `digit = %x30-39` and
`loop = loop "x" / "y"`. -/
def frameRules : List Rule :=
  [⟨"frame", .basic, [[⟨some (.between 2 (some 4)), .reference "field"⟩,
      .once (.literal [0x3A]), ⟨some (.count 0), .reference "loop"⟩]]⟩,
    ⟨"field", .basic, [[⟨some (.count 3), .reference "digit"⟩],
      [⟨some (.between 0 none), .literal [0x61, 0x62]⟩]]⟩,
    ⟨"digit", .basic, [[.once (.numeric ⟨.hexadecimal, true, [0x30, 0x39]⟩)]]⟩,
    ⟨"loop", .basic, [[.once (.reference "loop"), .once (.literal [0x78])],
      [.once (.literal [0x79])]]⟩]

/-- Three states are between the ends of a field, 15 between those of four fields, and two between
the parts of the frame. The rule that refers to itself is asked for no copy of. -/
theorem compile_size_frameRules :
    (frameRules.map Rule.name).Nodup ∧
      ∃ nfa, (classify frameRules).regular.compile
          { rangeMode := .inclusive, countMode := .exact } "frame" = .ok nfa ∧
        nfa.size = 19 := by
  have hnames : (frameRules.map Rule.name).Nodup := by decide
  obtain ⟨nfa, hcompile, -⟩ := @exists_compile { rangeMode := .inclusive, countMode := .exact }
    "frame" (classify frameRules).regular _ rfl
  obtain ⟨hcounts, hsize⟩ := compile_size hnames hcompile
  obtain ⟨rule, hrule, hname, hsize⟩ := hsize _ hcounts
  have hbody : ∀ rule ∈ (classify frameRules).regular.rules, rule.name = "frame" →
      Alternation.states { rangeMode := .inclusive, countMode := .exact }
        ((classify frameRules).regular.counts { rangeMode := .inclusive, countMode := .exact })
        rule.body = 17 := by
    decide
  exact ⟨hnames, nfa, hcompile, by rw [hsize, hbody rule hrule hname]⟩

end RegularRules

end AugmentedBnf
