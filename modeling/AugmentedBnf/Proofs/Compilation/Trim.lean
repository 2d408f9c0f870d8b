import AugmentedBnf.CommandLine.Session
import AugmentedBnf.Proofs.Compilation.Language
import AugmentedBnf.Proofs.Nfa.Alike
import AugmentedBnf.Proofs.Nfa.Trim

/-!
# Trim compilations

Bodies never ask for an octet out of an empty list: octets of a literal and of a numeric value are
each one of a list, and a range whose bounds are the wrong way round is a fault. So what is compiled
has no states that words cannot come through.

* `Alternation.noEmptyClass_expand`: the pattern of a body has no empty class.
* `RegularRules.compile_is_trim`: all states lie on walks from the entry to the one that accepts.
-/

namespace AugmentedBnf

namespace Pattern

lemma noEmptyClass_classes {octetss : List (List Octet)} (h : ∀ octets ∈ octetss, octets ≠ []) :
    (classes octetss).NoEmptyClass := by
  induction octetss with
  | nil => trivial
  | cons octets rest ih =>
    obtain ⟨hfirst, hrest⟩ := List.forall_mem_cons.mp h
    cases rest with
    | nil => exact hfirst
    | cons next rest => exact ⟨hfirst, ih hrest⟩

lemma noEmptyClass_word (octets : List Octet) : (word octets).NoEmptyClass := by
  refine noEmptyClass_classes fun octets hoctets => ?_
  obtain ⟨octet, -, rfl⟩ := List.mem_map.mp hoctets
  exact List.cons_ne_nil _ _

lemma noEmptyClass_text (octets : List Octet) : (text octets).NoEmptyClass := by
  refine noEmptyClass_classes fun octets hoctets => ?_
  obtain ⟨octet, -, rfl⟩ := List.mem_map.mp hoctets
  split_ifs <;> exact List.cons_ne_nil _ _

lemma noEmptyClass_range {lower upper : Octet} (h : lower ≤ upper) :
    (range lower upper).NoEmptyClass := by
  rw [UInt8.le_iff_toNat_le] at h
  rw [range, NoEmptyClass, ne_eq, List.map_eq_nil_iff, List.range'_eq_nil_iff]
  omega

variable {body last : Pattern}

lemma noEmptyClass_copies (hbody : body.NoEmptyClass) (hlast : last.NoEmptyClass) (count : Nat) :
    (copies count body last).NoEmptyClass := by
  induction count with
  | zero => exact hlast
  | succ count ih => exact ⟨hbody, ih⟩

lemma noEmptyClass_atMost (hbody : body.NoEmptyClass) (count : Nat) :
    (atMost count body).NoEmptyClass := by
  unfold atMost
  induction count - 1 with
  | zero => exact ⟨trivial, hbody⟩
  | succ count ih => exact ⟨trivial, hbody, ih⟩

lemma noEmptyClass_repeated (hbody : body.NoEmptyClass) (min : Nat) (max : Option Nat) :
    (body.repeated min max).NoEmptyClass := by
  cases max with
  | none =>
    have hplus : (plus body).NoEmptyClass := hbody
    rw [repeated, atLeast]
    split_ifs
    · exact hbody
    · exact noEmptyClass_copies hbody hplus _
  | some max =>
    simp only [repeated]
    split_ifs
    · exact noEmptyClass_atMost hbody max
    · exact noEmptyClass_copies hbody hbody _
    · exact noEmptyClass_copies hbody (noEmptyClass_atMost hbody _) min

end Pattern

/-- Bounds of a range without a fault are the right way round. -/
lemma Numeric.noEmptyClass_pattern {value : Numeric} {mode : RangeMode}
    (hfault : value.fault? mode = none) : (value.pattern mode).NoEmptyClass := by
  unfold pattern
  split
  · -- The bounds are octets, and a range that is the wrong way round has a fault.
    next lower upper hranged hvalues =>
    have hlower : lower.toUInt8.toNat = lower.toNat := toNat_toUInt8 hfault (by simp [hvalues])
    have hupper : upper.toUInt8.toNat = upper.toNat := toNat_toUInt8 hfault (by simp [hvalues])
    have hle : ¬ upper < lower := by
      intro hlt
      simp only [fault?, hranged, hvalues, hlt, if_true] at hfault
      split at hfault <;> cases hfault
    rw [UInt32.lt_iff_toNat_lt, not_lt] at hle
    refine Pattern.noEmptyClass_range ?_
    rwa [UInt8.le_iff_toNat_le, hlower, hupper]
  · exact Pattern.noEmptyClass_word _

/-! ### Bodies and names -/

section

variable {options : Options} {rule : String} {inline : String → Except ExpansionError Pattern}

mutual

lemma Element.noEmptyClass_expand
    (hinline : ∀ name pattern, inline name = .ok pattern → pattern.NoEmptyClass) :
    ∀ (element : Element) (pattern : Pattern),
      element.expand options rule inline = .ok pattern → pattern.NoEmptyClass
  | .reference name, pattern, h => hinline name pattern h
  | .group body, pattern, h => Alternation.noEmptyClass_expand hinline body pattern h
  | .option body, pattern, h => by
    obtain ⟨inner, hbody, rfl⟩ := Element.expand_option_eq_ok.mp h
    exact ⟨trivial, Alternation.noEmptyClass_expand hinline body inner hbody⟩
  | .literal octets, pattern, h | .prose octets, pattern, h => by
    obtain rfl : Pattern.text octets = pattern := Except.ok.inj h
    exact Pattern.noEmptyClass_text octets
  | .numeric value, pattern, h => by
    obtain ⟨hfault, rfl⟩ := Element.expand_numeric_eq_ok.mp h
    exact Numeric.noEmptyClass_pattern hfault

lemma Repetition.noEmptyClass_expand
    (hinline : ∀ name pattern, inline name = .ok pattern → pattern.NoEmptyClass) :
    ∀ (repetition : Repetition) (pattern : Pattern),
      repetition.expand options rule inline = .ok pattern → pattern.NoEmptyClass
  | ⟨none, element⟩, pattern, h => Element.noEmptyClass_expand hinline element pattern h
  | ⟨some bounds, element⟩, pattern, h => by
    obtain ⟨-, ⟨-, rfl⟩ | ⟨-, inner, helement, rfl⟩⟩ := Repetition.expand_bounds_eq_ok.mp h
    · trivial
    · exact Pattern.noEmptyClass_repeated
        (Element.noEmptyClass_expand hinline element inner helement) _ _

lemma Concatenation.noEmptyClass_expand
    (hinline : ∀ name pattern, inline name = .ok pattern → pattern.NoEmptyClass) :
    ∀ (branch : Concatenation) (pattern : Pattern),
      Concatenation.expand options rule inline branch = .ok pattern → pattern.NoEmptyClass
  | [], pattern, h => by
    obtain rfl : Pattern.skip = pattern := Except.ok.inj h
    trivial
  | [repetition], pattern, h => Repetition.noEmptyClass_expand hinline repetition pattern h
  | repetition :: next :: rest, pattern, h => by
    obtain ⟨first, hfirst, second, hsecond, rfl⟩ := Concatenation.expand_cons_cons_eq_ok.mp h
    exact ⟨Repetition.noEmptyClass_expand hinline repetition first hfirst,
      Concatenation.noEmptyClass_expand hinline (next :: rest) second hsecond⟩

/-- The pattern of a body has no empty class if those of its names have none. -/
lemma Alternation.noEmptyClass_expand
    (hinline : ∀ name pattern, inline name = .ok pattern → pattern.NoEmptyClass) :
    ∀ (body : Alternation) (pattern : Pattern),
      Alternation.expand options rule inline body = .ok pattern → pattern.NoEmptyClass
  | [], pattern, h => by cases h
  | [branch], pattern, h => Concatenation.noEmptyClass_expand hinline branch pattern h
  | branch :: next :: rest, pattern, h => by
    obtain ⟨first, hfirst, second, hsecond, rfl⟩ := Alternation.expand_cons_cons_eq_ok.mp h
    exact ⟨Concatenation.noEmptyClass_expand hinline branch first hfirst,
      Alternation.noEmptyClass_expand hinline (next :: rest) second hsecond⟩

end

end

namespace RegularRules

variable {regular : RegularRules} {options : Options} {root : String} {pattern : Pattern} {nfa : Nfa}

lemma noEmptyClass_of_expand (h : regular.expand options root = .ok pattern) :
    pattern.NoEmptyClass := by
  refine inline_induction (P := fun _ pattern => pattern.NoEmptyClass) ?_ _ root root pattern h
  exact fun found _ inline hinline => Alternation.noEmptyClass_expand hinline found.body

/-- A compiled automaton accepts in one state. All of its states are on walks from the entry to this
one, so that the reachable states are all states, some word is accepted, and a run of the command
tells the number of all states. -/
theorem compile_is_trim {rules : List Rule}
    (hcompile : (classify rules).regular.compile options root = .ok nfa) :
    (∃ exit < nfa.size, (∀ id, nfa.isAccepting id ↔ id = exit) ∧
      ∀ id < nfa.size, Reaches nfa.states nfa.entry id ∧ Reaches nfa.states id exit) ∧
    nfa.reachable.toList = List.range nfa.size ∧
    (∃ word, nfa.Accepts word) ∧
    ∀ (grammar : Grammar) (invocation : CommandLine.Invocation), grammar.rules = rules →
      invocation.root = some root → invocation.options = options →
      invocation.process grammar =
        ⟨0, grammar.render ++ CommandLine.renderClassification (classify rules) ++
            ("Total states = " ++ toString nfa.size ++ "\n"), none,
          !(classify rules).isRegular⟩ := by
  obtain ⟨pattern, hexpand, hpattern⟩ := compile_eq_ok hcompile
  have hproper := noEmptyClass_of_expand hexpand
  have hexit := (Nfa.entry_ofPattern? hpattern).2
  have haccepting : ∀ id, nfa.isAccepting id ↔ id = 1 :=
    fun _ => Nfa.isAccepting_ofPattern? hpattern
  have hlinks : ∀ id < nfa.size, Reaches nfa.states nfa.entry id ∧ Reaches nfa.states id 1 :=
    fun _ => Nfa.links_ofPattern? hproper hpattern
  have hreachable : nfa.reachable.toList = List.range nfa.size :=
    Nfa.toList_reachable fun _ => Nfa.reaches_ofPattern? hproper hpattern
  have hcount : nfa.reachable.size = nfa.size := by
    rw [← Std.ExtTreeSet.length_toList, hreachable, List.length_range]
  refine ⟨⟨1, hexit, haccepting, hlinks⟩, hreachable, ?_, ?_⟩
  · obtain ⟨word, hwalk⟩ := (hlinks 1 hexit).1
    exact ⟨word, 1, (haccepting 1).mpr rfl, hwalk⟩
  · rintro grammar invocation rfl hroot rfl
    simp only [CommandLine.Invocation.process, Grammar.classify, hroot, hcompile]
    unfold CommandLine.renderSize
    rw [hcount]

/-- The rules `list = 1*(item ",") [end]`, `item = "i" / ""` and `end = %d13.10`. -/
def listRules : List Rule :=
  [⟨"list", .basic, [[⟨some (.between 1 none), .group [[.once (.reference "item"),
      .once (.literal [0x2C])]]⟩, .once (.option [[.once (.reference "end")]])]]⟩,
    ⟨"item", .basic, [[.once (.literal [0x69])], [.once (.literal [])]]⟩,
    ⟨"end", .basic, [[.once (.numeric ⟨.decimal, false, [13, 10]⟩)]]⟩]

/-- The list is connected twice, once for its first item and once for a loop of items, and no state
of either is out of reach. -/
theorem compile_is_trim_listRules :
    ∃ nfa, (classify listRules).regular.compile {} "list" = .ok nfa ∧
      (∃ exit < nfa.size, (∀ id, nfa.isAccepting id ↔ id = exit) ∧
        ∀ id < nfa.size, Reaches nfa.states nfa.entry id ∧ Reaches nfa.states id exit) ∧
      nfa.size = 6 ∧ nfa.reachable.toList = [0, 1, 2, 3, 4, 5] ∧ (∃ word, nfa.Accepts word) ∧
      CommandLine.Invocation.process ⟨"list.abnf", some "list", {}⟩ ⟨listRules⟩ =
        ⟨0, Grammar.render ⟨listRules⟩ ++ CommandLine.renderClassification (classify listRules) ++
          "Total states = 6\n", none, false⟩ := by
  have hexpand : (classify listRules).regular.expand {} "list" =
      .ok (.seq (.plus (.seq (.union (.oneOf [0x69, 0x49]) .skip) (.oneOf [0x2C])))
        (.union .skip (.seq (.oneOf [13]) (.oneOf [10])))) := rfl
  obtain ⟨nfa, hcompile, -⟩ := exists_compile hexpand
  obtain ⟨pattern, hpattern, hnfa⟩ := compile_eq_ok hcompile
  obtain rfl := Except.ok.inj (hexpand.symm.trans hpattern)
  have hsize : nfa.size = 6 := Nfa.size_ofPattern? hnfa
  obtain ⟨hlinks, hreachable, haccepts, hrun⟩ := compile_is_trim hcompile
  refine ⟨nfa, hcompile, hlinks, hsize, ?_, haccepts, ?_⟩
  · rw [hreachable, hsize]
    rfl
  · rw [hrun ⟨listRules⟩ ⟨"list.abnf", some "list", {}⟩ rfl rfl rfl, hsize]
    rfl

end RegularRules

end AugmentedBnf
