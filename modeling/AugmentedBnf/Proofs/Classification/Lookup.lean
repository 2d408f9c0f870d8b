import AugmentedBnf.Proofs.Compilation.Dependence
import AugmentedBnf.Proofs.Grammar.RoundTrip
import AugmentedBnf.Proofs.Grammar.RuleIndex

/-!
# Looking up regular rules

An index tells the place of every name among the rules found, and a rule that is found later takes
over the name. So a name stands for the last rule of this name. Merged rules have one name each, and
then this is the first rule of the name in the grammar, too.

* `RuleIndex.find?_push`: what one more rule changes.
* `RuleIndex.find?_ofRules`: what an index finds after any number of rules.
* `RegularRules.lookups_agree`: all ways to look up a name agree.
-/

namespace AugmentedBnf

namespace RuleIndex

variable {index : RuleIndex} {rules : List Rule} {rule : Rule} {name : String}

def ofRules (rules : List Rule) : RuleIndex := rules.foldl push empty

def find? (index : RuleIndex) (name : String) : Option Rule :=
  index.places[name]?.bind fun place => index.rules[place]?

def contains (index : RuleIndex) (name : String) : Bool := index.places.contains name

lemma ofRules_concat : ofRules (rules ++ [rule]) = (ofRules rules).push rule :=
  List.foldl_concat push empty rule rules

/-- One more rule changes what is found of its own name only. -/
lemma find?_push : (index.push rule).find? name =
    if rule.name == name then some rule else index.find? name := by
  simp only [find?, push, Std.HashMap.getElem?_insert]
  split
  · simp
  · cases hplace : index.places[name]? with
    | none => rfl
    | some place => simp [List.getElem?_append_left (index.place_lt hplace)]

/-- A name stands for the rule found last. -/
lemma find?_ofRules (rules : List Rule) (name : String) :
    (ofRules rules).find? name = RegularRules.get? ⟨rules⟩ name := by
  -- On the last rule, which is the one that lookups come to first.
  induction rules using List.reverseRecOn with
  | nil => simp [ofRules, empty, find?, RegularRules.get?]
  | append_singleton rules rule ih =>
    rw [ofRules_concat, find?_push, ih]
    simp only [RegularRules.get?, List.reverse_append, List.reverse_singleton,
      List.singleton_append, List.find?_cons]
    cases rule.name == name <;> rfl

/-- A name has a place if a rule of it is found. -/
lemma contains_ofRules (rules : List Rule) (name : String) :
    (ofRules rules).contains name = RegularRules.contains ⟨rules⟩ name := by
  induction rules using List.reverseRecOn with
  | nil => simp [ofRules, empty, contains, RegularRules.contains]
  | append_singleton rules rule ih =>
    rw [ofRules_concat, contains, push, Std.HashMap.contains_insert, ← contains, ih]
    simp [RegularRules.contains, Bool.or_comm]

end RuleIndex

/-! ### The last rule of a name -/

/-- A rule has a name, and no rule behind it has. -/
def IsLastNamed (rules : List Rule) (name : String) (rule : Rule) : Prop :=
  ∃ before after, rules = before ++ rule :: after ∧ rule.name = name ∧
    ∀ other ∈ after, other.name ≠ name

namespace RegularRules

lemma get?_eq_some_iff {regular : RegularRules} {name : String} {rule : Rule} :
    regular.get? name = some rule ↔ IsLastNamed regular.rules name rule := by
  rw [get?, List.find?_eq_some_iff_append]
  constructor
  · rintro ⟨hname, after, before, hrules, hafter⟩
    refine ⟨before.reverse, after.reverse, ?_, beq_iff_eq.mp hname, fun other hother => ?_⟩
    · rw [← List.reverse_reverse regular.rules, hrules]
      simp
    · simpa using hafter other (List.mem_reverse.mp hother)
  · rintro ⟨before, after, hrules, hname, hafter⟩
    refine ⟨beq_iff_eq.mpr hname, after.reverse, before.reverse, ?_, fun other hother => ?_⟩
    · rw [hrules]
      simp
    · simpa using hafter other (List.mem_reverse.mp hother)

/-- Where names are defined once, the regular rule of a name is the rule of this name. -/
lemma get?_classify_eq_rule? {rules : List Rule} {name : String}
    (hnames : (rules.map Rule.name).Nodup) (h : (classify rules).regular.contains name) :
    (classify rules).regular.get? name = Grammar.rule? ⟨rules⟩ name := by
  obtain ⟨rule, hrule⟩ := contains_iff.mp h
  obtain ⟨hregular, hname⟩ := (get?_classify hnames).mp hrule
  have hfirst : Grammar.rule? ⟨rules⟩ name = some rule :=
    (find?_name_eq_some hnames).mpr ⟨regular_subset rules hregular, hname⟩
  rw [hrule, hfirst]

/-- Whatever the names of rules are, a name is contained if a rule is found for it, if it is the name
of a regular rule, and the rule found is the last regular one of the name. This is what an index
finds that every regular rule is added to in turn. In a grammar that is read it is the rule of the
name. -/
theorem lookups_agree :
    (∀ rules name,
      ((classify rules).regular.contains name ↔ ((classify rules).regular.get? name).isSome) ∧
      (((classify rules).regular.get? name).isSome ↔
        ∃ rule ∈ (classify rules).regular.rules, rule.name = name) ∧
      (∀ rule, (classify rules).regular.get? name = some rule ↔
        IsLastNamed (classify rules).regular.rules name rule) ∧
      (RuleIndex.ofRules (classify rules).regular.rules).find? name =
        (classify rules).regular.get? name ∧
      (RuleIndex.ofRules (classify rules).regular.rules).contains name =
        (classify rules).regular.contains name) ∧
    ∀ document grammar, Grammar.read document = .ok grammar → ∀ name,
      grammar.classify.regular.contains name →
        grammar.classify.regular.get? name = grammar.rule? name := by
  refine ⟨fun rules name => ⟨?_, ?_, fun rule => get?_eq_some_iff, ?_, ?_⟩, ?_⟩
  · rw [contains_iff, Option.isSome_iff_exists]
  · rw [Option.isSome_iff_exists, ← contains_iff]
    simp [contains]
  · exact RuleIndex.find?_ofRules _ name
  · exact RuleIndex.contains_ofRules _ name
  · intro document grammar hread name hname
    obtain ⟨definitions, -, hmerge⟩ := Grammar.read_eq_ok.mp hread
    exact get?_classify_eq_rule? (Definition.nodup_merge hmerge) hname

/-- The rules `a = b / c`, `b = "x"`, `c = c` and `d = e`. -/
def gatheredRules : List Rule :=
  [⟨"a", .basic, [[.once (.reference "b")], [.once (.reference "c")]]⟩,
    ⟨"b", .basic, [[.once (.literal [0x78])]]⟩,
    ⟨"c", .basic, [[.once (.reference "c")]]⟩,
    ⟨"d", .basic, [[.once (.reference "e")]]⟩]

/-- A rule is gathered from two lines and found behind another one, which stands behind it. -/
theorem lookups_agree_gatheredRules :
    Grammar.read (Utf8.encode "a = b\nb = \"x\"\na =/ c\nc = c\nd = e\n") = .ok ⟨gatheredRules⟩ ∧
      (classify gatheredRules).regular.contains "a" ∧
      (classify gatheredRules).regular.get? "a" = Grammar.rule? ⟨gatheredRules⟩ "a" ∧
      IsLastNamed (classify gatheredRules).regular.rules "a" gatheredRules[0] ∧
      (classify gatheredRules).regular.get? "c" = none := by
  have hread : Grammar.read (Utf8.encode "a = b\nb = \"x\"\na =/ c\nc = c\nd = e\n") =
      .ok ⟨gatheredRules⟩ := by decide +kernel
  have hcontains : (classify gatheredRules).regular.contains "a" := by decide +kernel
  obtain ⟨hany, hgrammar⟩ := lookups_agree
  obtain ⟨-, -, hlast, -, -⟩ := hany gatheredRules "a"
  have hrule := hgrammar _ _ hread "a" hcontains
  exact ⟨hread, hcontains, hrule, (hlast _).mp hrule, rfl⟩

end RegularRules

end AugmentedBnf
