import AugmentedBnf.Proofs.Compilation.Language
import AugmentedBnf.Proofs.Compilation.Termination
import AugmentedBnf.Proofs.Nfa.Emission
import AugmentedBnf.Proofs.Nfa.Trim

/-!
# Compilation in one go

A compilation need not spell out the pattern of a name first: bodies can be gone through once,
states be allocated and edges be added on the way, up to the first fault. This comes to the same
automata and the same faults. Here the operations are told, also those before a fault, and every
edge among them is added from a state that is allocated before it.

* `Alternation.builds_emit`: bodies are built in one go as their patterns are built.
* `RegularRules.compile_allocates_first`: no operation lacks its state, and what this makes of the
  states of an automaton.
-/

namespace AugmentedBnf

open Operation Emitter

section

variable (options : Options) (rule : String) (inline : String → Link)

mutual

/-- The part that builds an element in the body of a rule, where another function tells those that
build names. -/
def Element.emit : Element → Link
  | .reference name => inline name
  | .group body => Alternation.emit body
  | .option body => .union .skip (Alternation.emit body)
  | .literal octets | .prose octets => (Pattern.text octets).emit
  | .numeric value =>
    match value.fault? options.rangeMode with
    | some fault => .fail (.faulty fault rule)
    | none => (value.pattern options.rangeMode).emit

def Repetition.emit : Repetition → Link
  | ⟨none, element⟩ => Element.emit element
  | ⟨some bounds, element⟩ =>
    match bounds.fault? options with
    | some fault => .fail (.faulty fault rule)
    | none =>
      if bounds.isZero options.countMode then .skip
      else .repeated bounds.min.toNat ((bounds.maximum options.countMode).map UInt32.toNat)
        (Element.emit element)

def Concatenation.emit : Concatenation → Link
  | [] => .skip
  | [repetition] => Repetition.emit repetition
  | repetition :: rest => .seq (Repetition.emit repetition) (Concatenation.emit rest)

def Alternation.emit : Alternation → Link
  | [] => .fail (.faulty .emptyAlternation rule)
  | [branch] => Concatenation.emit branch
  | branch :: rest => .union (Concatenation.emit branch) (Alternation.emit rest)

end

end

namespace RegularRules

variable (regular : RegularRules) (options : Options)

/-- The part that builds a name in the body of a rule, with at most the given number of rules inside
of each other. -/
def emit : Nat → (rule name : String) → Link
  | 0, rule, name =>
    match regular.resolve rule name with
    | .error error => .fail error
    | .ok found => .fail (.endless found.name)
  | depth + 1, rule, name =>
    match regular.resolve rule name with
    | .error error => .fail error
    | .ok found => Alternation.emit options found.name (emit depth found.name) found.body

/-- What building a name between two new states ends in, and the operations performed by then. -/
def emission (root : String) : Except ExpansionError Unit × List Operation :=
  Emitter.after (do
    let entry ← allocate
    let exit ← allocate
    regular.emit options regular.size root root entry exit) []

end RegularRules

section

variable {options : Options} {rule : String} {inline : String → Link}

mutual

lemma Element.isSound_emit (h : ∀ name, (inline name).IsSound) :
    ∀ element : Element, (element.emit options rule inline).IsSound
  | .reference name => h name
  | .group body => Alternation.isSound_emit h body
  | .option body => Link.isSound_skip.union (Alternation.isSound_emit h body)
  | .literal octets | .prose octets => (Pattern.text octets).isSound_emit
  | .numeric value => by
    rw [Element.emit]
    cases value.fault? options.rangeMode with
    | none => exact (value.pattern options.rangeMode).isSound_emit
    | some fault => exact Link.isSound_fail _

lemma Repetition.isSound_emit (h : ∀ name, (inline name).IsSound) :
    ∀ repetition : Repetition, (repetition.emit options rule inline).IsSound
  | ⟨none, element⟩ => Element.isSound_emit h element
  | ⟨some bounds, element⟩ => by
    rw [Repetition.emit]
    cases bounds.fault? options with
    | some fault => exact Link.isSound_fail _
    | none =>
      split_ifs
      · exact Link.isSound_skip
      · exact (Element.isSound_emit h element).repeated _ _

lemma Concatenation.isSound_emit (h : ∀ name, (inline name).IsSound) :
    ∀ branch : Concatenation, (Concatenation.emit options rule inline branch).IsSound
  | [] => Link.isSound_skip
  | [repetition] => Repetition.isSound_emit h repetition
  | repetition :: next :: rest =>
    (Repetition.isSound_emit h repetition).seq (Concatenation.isSound_emit h (next :: rest))

/-- A body is built from allocated states, whatever fault it may have, if names are. -/
lemma Alternation.isSound_emit (h : ∀ name, (inline name).IsSound) :
    ∀ body : Alternation, (Alternation.emit options rule inline body).IsSound
  | [] => Link.isSound_fail _
  | [branch] => Concatenation.isSound_emit h branch
  | branch :: next :: rest =>
    (Concatenation.isSound_emit h branch).union (Alternation.isSound_emit h (next :: rest))

end

end

/-! ### Building in one go -/

namespace Link

/-- A part builds a pattern, or it ends in the fault because of which there is none. -/
def Builds (link : Link) (outcome : Except ExpansionError Pattern) : Prop :=
  match outcome with
  | .ok pattern => link = pattern.emit
  | .error error => link.EndsIn (.error error)

variable {first second body : Link} {outcome outcome' : Except ExpansionError Pattern}

lemma builds_emit (pattern : Pattern) : pattern.emit.Builds (.ok pattern) := rfl

lemma builds_fail (error : ExpansionError) : (fail error).Builds (.error error) := endsIn_fail

lemma Builds.seq (hfirst : first.Builds outcome) (hsecond : second.Builds outcome') :
    (seq first second).Builds (do return .seq (← outcome) (← outcome')) := by
  cases outcome with
  | error error => exact EndsIn.seq_of_error hfirst
  | ok pattern =>
    obtain rfl : first = pattern.emit := hfirst
    cases outcome' with
    | error error => exact pattern.endsIn_emit.seq hsecond
    | ok pattern' =>
      obtain rfl : second = pattern'.emit := hsecond
      rfl

lemma Builds.union (hfirst : first.Builds outcome) (hsecond : second.Builds outcome') :
    (union first second).Builds (do return .union (← outcome) (← outcome')) := by
  cases outcome with
  | error error => exact EndsIn.union_of_error hfirst
  | ok pattern =>
    obtain rfl : first = pattern.emit := hfirst
    cases outcome' with
    | error error => exact pattern.endsIn_emit.union hsecond
    | ok pattern' =>
      obtain rfl : second = pattern'.emit := hsecond
      rfl

lemma Builds.repeated (hbody : body.Builds outcome) (min : Nat) (max : Option Nat) :
    (repeated min max body).Builds (do return (← outcome).repeated min max) := by
  cases outcome with
  | error error => exact EndsIn.repeated_of_error hbody min max
  | ok pattern =>
    obtain rfl : body = pattern.emit := hbody
    exact (pattern.emit_repeated min max).symm

end Link

section

variable {options : Options} {rule : String} {inline : String → Link}
  {inline' : String → Except ExpansionError Pattern}

mutual

lemma Element.builds_emit (h : ∀ name, (inline name).Builds (inline' name)) :
    ∀ element : Element,
      (element.emit options rule inline).Builds (element.expand options rule inline')
  | .reference name => h name
  | .group body => Alternation.builds_emit h body
  | .option body => (Link.builds_emit .skip).union (Alternation.builds_emit h body)
  | .literal octets | .prose octets => Link.builds_emit (.text octets)
  | .numeric value => by
    rw [Element.expand, Element.emit]
    cases value.fault? options.rangeMode with
    | none => exact Link.builds_emit _
    | some fault => exact Link.builds_fail _

lemma Repetition.builds_emit (h : ∀ name, (inline name).Builds (inline' name)) :
    ∀ repetition : Repetition,
      (repetition.emit options rule inline).Builds (repetition.expand options rule inline')
  | ⟨none, element⟩ => Element.builds_emit h element
  | ⟨some bounds, element⟩ => by
    rw [Repetition.expand, Repetition.emit]
    cases bounds.fault? options with
    | some fault => exact Link.builds_fail _
    | none =>
      split_ifs
      · exact Link.builds_emit .skip
      · exact (Element.builds_emit h element).repeated _ _

lemma Concatenation.builds_emit (h : ∀ name, (inline name).Builds (inline' name)) :
    ∀ branch : Concatenation, (Concatenation.emit options rule inline branch).Builds
      (Concatenation.expand options rule inline' branch)
  | [] => Link.builds_emit .skip
  | [repetition] => Repetition.builds_emit h repetition
  | repetition :: next :: rest =>
    (Repetition.builds_emit h repetition).seq (Concatenation.builds_emit h (next :: rest))

/-- A body is built as its pattern is, up to the fault because of which it may have none. -/
lemma Alternation.builds_emit (h : ∀ name, (inline name).Builds (inline' name)) :
    ∀ body : Alternation, (Alternation.emit options rule inline body).Builds
      (Alternation.expand options rule inline' body)
  | [] => Link.builds_fail _
  | [branch] => Concatenation.builds_emit h branch
  | branch :: next :: rest =>
    (Concatenation.builds_emit h branch).union (Alternation.builds_emit h (next :: rest))

end

end

namespace RegularRules

variable {regular : RegularRules} {rules : List Rule} {options : Options} {root : String}
  {pattern : Pattern} {error : ExpansionError}

lemma isSound_emit (depth : Nat) (rule name : String) :
    (regular.emit options depth rule name).IsSound := by
  induction depth generalizing rule name with
  | zero =>
    rw [emit]
    split
    · exact Link.isSound_fail _
    · exact Link.isSound_fail _
  | succ depth ih =>
    rw [emit]
    split
    · exact Link.isSound_fail _
    · exact Alternation.isSound_emit (ih _) _

lemma builds_emit (depth : Nat) (rule name : String) :
    (regular.emit options depth rule name).Builds (regular.inline options depth rule name) := by
  induction depth generalizing rule name with
  | zero =>
    rw [emit, inline]
    cases regular.resolve rule name with
    | error error => exact Link.builds_fail _
    | ok found => exact Link.builds_fail _
  | succ depth ih =>
    rw [emit, inline]
    cases regular.resolve rule name with
    | error error => exact Link.builds_fail _
    | ok found => exact Alternation.builds_emit (ih found.name) found.body

/-! ### Whole constructions -/

/-- A construction begins with the entry and the exit. -/
lemma emission_eq : regular.emission options root =
    (regular.emit options regular.size root root 0 1).after [.addState, .addState] := rfl

/-- Every edge is added from a state allocated before it, whatever a construction ends in. -/
lemma allocatesFirst_emission : AllocatesFirst (regular.emission options root).2 := by
  have hstart : AllocatesFirst [.addState, .addState] :=
    Builder.exists_run?_iff.mp ⟨_, rfl⟩
  rw [emission_eq]
  exact (isSound_emit _ root root hstart Nat.zero_lt_two Nat.one_lt_two).allocatesFirst

/-- A construction ends in the fault because of which there is no pattern. -/
lemma emission_of_expand_error (h : regular.expand options root = .error error) :
    (regular.emission options root).1 = .error error := by
  have hbuilds : (regular.emit options regular.size root root).Builds
      (regular.expand options root) := builds_emit regular.size root root
  rw [h] at hbuilds
  exact hbuilds 0 1 _

/-- A construction without a fault builds the automaton of the pattern. -/
lemma emission_of_expand_ok (h : regular.expand options root = .ok pattern) :
    (regular.emission options root).1 = .ok () ∧
      ∀ builder, Builder.run? (regular.emission options root).2 = some builder →
        Nfa.ofPattern? pattern = some (builder.finish 0 [1]) := by
  have hbuilds : (regular.emit options regular.size root root).Builds
      (regular.expand options root) := builds_emit regular.size root root
  rw [h] at hbuilds
  have hlink : regular.emit options regular.size root root = pattern.emit := hbuilds
  rw [emission_eq, hlink]
  refine ⟨pattern.endsIn_emit 0 1 _, fun builder hrun => ?_⟩
  rw [Pattern.run?_emit] at hrun
  have hconnect : pattern.connect 0 1 Builder.empty.addState.2.addState.2 = some builder := hrun
  rw [Nfa.ofPattern?, Option.bind_eq_bind, Option.bind_eq_some_iff]
  exact ⟨builder, hconnect, rfl⟩

/-- The entry of an automaton is its first state, and the only state that accepts is the second one.
All edges lead to its states, and none to the entry. -/
lemma states_of_compile {nfa : Nfa} (h : regular.compile options root = .ok nfa) :
    nfa.entry = 0 ∧ nfa.accepting.toList = [1] ∧
      ∀ source label target, Joins nfa.states source label target →
        target < nfa.size ∧ target ≠ nfa.entry := by
  obtain ⟨pattern, -, hpattern⟩ := compile_eq_ok h
  have hentry := (Nfa.entry_ofPattern? hpattern).1
  refine ⟨hentry, ?_, fun source label target hedge => ?_⟩
  · obtain ⟨builder, -, rfl⟩ := Nfa.ofPattern?_eq_some hpattern
    rfl
  · obtain ⟨hpos, hlt⟩ := Nfa.target_ofPattern? hpattern hedge
    rw [hentry]
    exact ⟨hlt, hpos.ne'⟩

/-- Where names are defined once, a construction in one go adds edges only from states that are
allocated before, so that no operation fails, even if a fault ends it. It ends in the fault that
compilation tells, or its operations build the automaton. The entry is then the state allocated
first, and the one allocated next is the only one that accepts. All edges lead to allocated states,
and none to the entry. -/
theorem compile_allocates_first (hnames : (rules.map Rule.name).Nodup) (options : Options)
    (root : String) :
    ∃ outcome operations builder,
      (classify rules).regular.emission options root = (outcome, operations) ∧
      AllocatesFirst operations ∧ Builder.run? operations = some builder ∧
      (∀ error, (classify rules).regular.compile options root = .error error ↔
        ∃ fault rule, outcome = .error (.faulty fault rule) ∧
          error = .expansion (.faulty fault rule)) ∧
      (∀ nfa, (classify rules).regular.compile options root = .ok nfa ↔
        outcome = .ok () ∧ nfa = builder.finish 0 [1]) ∧
      ∀ nfa, (classify rules).regular.compile options root = .ok nfa →
        nfa.entry = 0 ∧ nfa.accepting.toList = [1] ∧
        ∀ source label target, Joins nfa.states source label target →
          target < nfa.size ∧ target ≠ nfa.entry := by
  have hfirst : AllocatesFirst ((classify rules).regular.emission options root).2 :=
    allocatesFirst_emission
  obtain ⟨builder, hrun⟩ := Builder.exists_run?_iff.mpr hfirst
  refine ⟨((classify rules).regular.emission options root).1, _, builder, rfl, hfirst, hrun, ?_⟩
  cases hexpand : (classify rules).regular.expand options root with
  | error error =>
    -- With names defined once the depth is never used up, so a fault is all that can be told.
    have hends := not_isEndless_expand (findsOnceFrom_of_nodup hnames root) options
    cases error with
    | endless last => exact absurd ⟨last, hexpand⟩ hends
    | faulty fault rule =>
      have hcompile : (classify rules).regular.compile options root =
          .error (.expansion (.faulty fault rule)) := by
        simp [compile, hexpand]
      rw [emission_of_expand_error hexpand, hcompile]
      refine ⟨fun error => ?_, fun nfa => by simp, fun nfa hnfa => by cases hnfa⟩
      simp only [Except.error.injEq, ExpansionError.faulty.injEq]
      constructor
      · rintro rfl
        exact ⟨fault, rule, ⟨rfl, rfl⟩, rfl⟩
      · rintro ⟨_, _, ⟨rfl, rfl⟩, rfl⟩
        rfl
  | ok pattern =>
    obtain ⟨houtcome, hbuilds⟩ := emission_of_expand_ok hexpand
    have hcompile : (classify rules).regular.compile options root =
        .ok (builder.finish 0 [1]) := by
      simp [compile, hexpand, hbuilds builder hrun]
    refine ⟨fun error => ?_, fun nfa => ?_, fun nfa => states_of_compile⟩
    · simp [houtcome, hcompile]
    · simp [houtcome, hcompile, eq_comm]

/-- The rules `top = ["a"] %x1FF` and `loop = *"b"`. -/
def optionalRules : List Rule :=
  [⟨"top", .basic, [[.once (.option [[.once (.literal [0x61])]]),
      .once (.numeric ⟨.hexadecimal, false, [0x1FF]⟩)]]⟩,
    ⟨"loop", .basic, [[⟨some (.between 0 none), .literal [0x62]⟩]]⟩]

/-- For `top` the option has been built when the value ends the construction. For `loop` all
operations are performed, and the loops are at the state that accepts. -/
theorem compile_allocates_first_optionalRules :
    (optionalRules.map Rule.name).Nodup ∧
      (classify optionalRules).regular.emission {} "top" =
        (.error (.faulty (.valueOutOfRange 0x1FF) "top"),
          [.addState, .addState, .addState, .addEpsilon 0 2, .addTransition 0 0x61 2,
            .addTransition 0 0x41 2]) ∧
      AllocatesFirst [.addState, .addState, .addState, .addEpsilon 0 2, .addTransition 0 0x61 2,
        .addTransition 0 0x41 2] ∧
      (classify optionalRules).regular.compile {} "top" =
        .error (.expansion (.faulty (.valueOutOfRange 0x1FF) "top")) ∧
      (classify optionalRules).regular.emission {} "loop" =
        (.ok (), [.addState, .addState, .addEpsilon 0 1, .addTransition 1 0x62 1,
          .addTransition 1 0x42 1]) ∧
      ∃ nfa, (classify optionalRules).regular.compile {} "loop" = .ok nfa ∧ nfa.entry = 0 ∧
        nfa.accepting.toList = [1] ∧ Joins nfa.states 1 (some 0x62) 1 := by
  have hnames : (optionalRules.map Rule.name).Nodup := by decide
  obtain ⟨_, _, _, htop, hfirst, -, herror, -, -⟩ := compile_allocates_first hnames {} "top"
  obtain ⟨_, _, builder, hloop, -, hrun, -, hok, hstates⟩ :=
    compile_allocates_first hnames {} "loop"
  cases htop
  cases hloop
  have hcompile := (hok _).mpr ⟨rfl, rfl⟩
  obtain ⟨hentry, haccepting, -⟩ := hstates _ hcompile
  refine ⟨hnames, rfl, hfirst, (herror _).mpr ⟨_, _, rfl, rfl⟩, rfl, _, hcompile, hentry,
    haccepting, (Builder.joins_run? hrun).mpr ?_⟩
  decide

end RegularRules

end AugmentedBnf
