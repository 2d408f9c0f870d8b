import AugmentedBnf.Proofs.Compilation.Language
import AugmentedBnf.Proofs.Compilation.Termination
import AugmentedBnf.Proofs.Expansion.Faults

/-!
# Compilation tells the first fault

Where names are defined once, a walk through a name comes to rules that stand further and further to
the front, so there is one for every name. Compilation copies elements and allocates states, but it
comes to the same faults in the same order as the walk, which looks at every element once.

* `RegularRules.exists_nameWalk`: there is a walk through every name.
* `RegularRules.compile_tells_first_fault`: compilation succeeds if the walk meets no fault, and tells
  the first one otherwise.
-/

namespace AugmentedBnf

namespace RegularRules

variable {rules : List Rule}

/-- Where names are defined once, there is a walk through every name. -/
lemma exists_nameWalk (hnames : (rules.map Rule.name).Nodup) (options : Options)
    (rule name : String) :
    ∃ faults, NameWalk (classify rules).regular options rule name faults := by
  -- A rule that is referred to stands further to the front.
  induction hposition : (classify rules).regular.position name
    using Nat.strong_induction_on generalizing rule name with
  | _ position ih =>
    cases hname : (classify rules).regular.get? name with
    | none => exact ⟨_, .undefined hname⟩
    | some found =>
      cases hmarker : found.marker with
      | incremental => exact ⟨_, .incremental hname hmarker⟩
      | basic =>
        have hinside : ∀ inner ∈ Alternation.references found.body,
            ∃ faults, NameWalk (classify rules).regular options name inner faults := by
          intro inner hinner
          cases hfound : (classify rules).regular.get? inner with
          | none => exact ⟨_, .undefined hfound⟩
          | some rule =>
            have hinlines : (classify rules).regular.Inlines name inner :=
              ⟨found, hname, Rule.mem_dependencies.mpr hinner, contains_iff.mpr ⟨rule, hfound⟩⟩
            have hlt := position_lt_of_inlines (findsOnceFrom_of_nodup hnames name name .refl)
              (findsOnceFrom_of_nodup hnames inner inner .refl) hinlines
            exact ih _ (hposition ▸ hlt) name inner rfl
        obtain ⟨faults, hbody⟩ := Alternation.exists_walk found.body hinside
        exact ⟨faults, .basic hname hmarker hbody⟩

/-- Where names are defined once, a walk through a name ends. The name has an automaton exactly if
the walk meets no fault, and otherwise its error is the first fault that the walk meets, with the
rule whose body it is in. -/
theorem compile_tells_first_fault (hnames : (rules.map Rule.name).Nodup) (options : Options)
    (root : String) :
    (∃ faults, NameWalk (classify rules).regular options root root faults) ∧
    ∀ faults, NameWalk (classify rules).regular options root root faults →
      ((∃ nfa, (classify rules).regular.compile options root = .ok nfa) ↔ faults = []) ∧
      ∀ error, (classify rules).regular.compile options root = .error error ↔
        faults.head?.map CompileError.expansion = some error := by
  refine ⟨exists_nameWalk hnames options root root, fun faults hwalk => ?_⟩
  have hends := not_isEndless_expand (findsOnceFrom_of_nodup hnames root) options
  have hreports := (hwalk.reports (classify rules).regular.size).resolve_left hends
  cases faults with
  | nil =>
    obtain ⟨pattern, hexpand⟩ := hreports
    obtain ⟨nfa, hcompile, -⟩ := exists_compile hexpand
    simp [hcompile]
  | cons first faults =>
    have hexpand : (classify rules).regular.expand options root = .error first := hreports
    simp [compile, hexpand]

/-- The rules `top = mid 3*2self / "b" self`, `mid = "a" [%x41.1FF] 0self` and `self = self "s"`. -/
def faultyRules : List Rule :=
  [⟨"top", .basic, [
      [.once (.reference "mid"), ⟨some (.between 3 (some 2)), .reference "self"⟩],
      [.once (.literal [0x62]), .once (.reference "self")]]⟩,
    ⟨"mid", .basic, [[.once (.literal [0x61]),
      .once (.option [[.once (.numeric ⟨.hexadecimal, false, [0x41, 0x1FF]⟩)]]),
      ⟨some (.count 0), .reference "self"⟩]]⟩,
    ⟨"self", .basic, [[.once (.reference "self"), .once (.literal [0x73])]]⟩]

/-- The rule `mid` has a fault in it, behind which its count of zero hides another one. The walk goes
on to two faults of `top`, whose bounds keep it from `self` once. -/
lemma nameWalk_faultyRules :
    NameWalk (classify faultyRules).regular { countMode := .exact } "top" "top"
      [.faulty (.valueOutOfRange 0x1FF) "mid", .faulty (.invalidRepeat 3 2) "top",
        .faulty (.undefinedRule "self") "top"] := by
  have hvalue : Element.Walk (classify faultyRules).regular { countMode := .exact } "mid"
      (.numeric ⟨.hexadecimal, false, [0x41, 0x1FF]⟩) [.faulty (.valueOutOfRange 0x1FF) "mid"] :=
    .numericFault (Numeric.fault?_eq_some.mp rfl)
  have hmid : NameWalk (classify faultyRules).regular { countMode := .exact } "top" "mid"
      [.faulty (.valueOutOfRange 0x1FF) "mid"] :=
    .basic rfl rfl (.single (.cons (.once .literal)
      (.cons (.once (.option (.single (.cons (.once hvalue) .nil))))
        (.cons (.never (Repeat.fault?_eq_none.mp rfl) rfl rfl rfl) .nil))))
  have hbounds : Repetition.Walk (classify faultyRules).regular { countMode := .exact } "top"
      ⟨some (.between 3 (some 2)), .reference "self"⟩ [.faulty (.invalidRepeat 3 2) "top"] :=
    .boundsFault (Repeat.fault?_eq_some.mp rfl)
  have hself : NameWalk (classify faultyRules).regular { countMode := .exact } "top" "self"
      [.faulty (.undefinedRule "self") "top"] :=
    .undefined rfl
  exact .basic rfl rfl (.cons (.cons (.once (.reference hmid)) (.cons hbounds .nil))
    (.single (.cons (.once .literal) (.cons (.once (.reference hself)) .nil))))

/-- The first fault is told, with the rule that it is in and not with the root. -/
theorem compile_tells_first_fault_faultyRules :
    (faultyRules.map Rule.name).Nodup ∧
      (∃ faults, NameWalk (classify faultyRules).regular { countMode := .exact } "top" "top"
        (.faulty (.valueOutOfRange 0x1FF) "mid" :: faults)) ∧
      (classify faultyRules).regular.compile { countMode := .exact } "top" =
        .error (.expansion (.faulty (.valueOutOfRange 0x1FF) "mid")) := by
  have hnames : (faultyRules.map Rule.name).Nodup := by decide
  obtain ⟨-, htells⟩ := compile_tells_first_fault hnames { countMode := .exact } "top"
  obtain ⟨-, herror⟩ := htells _ nameWalk_faultyRules
  exact ⟨hnames, ⟨_, nameWalk_faultyRules⟩, (herror _).mpr rfl⟩

end RegularRules

end AugmentedBnf
