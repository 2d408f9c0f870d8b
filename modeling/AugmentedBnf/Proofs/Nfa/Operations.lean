import Mathlib.Data.List.Induction
import AugmentedBnf.Proofs.Nfa.Walk

/-!
# Automata from any order of operations

A run of operations succeeds exactly if every edge is added from a state that is allocated before
it, and then the number of states and the edges tell what is built. In what order they come makes no
difference, nor how often an edge is added, nor how many states there are by then.

* `Builder.size_run?`, `Builder.joins_run?`: what a run of operations builds.
* `Builder.exists_run?_iff`: which runs succeed.
* `Builder.finish_eq_iff`, `Builder.eq_iff_joins`: which runs build equal automata.
-/

namespace AugmentedBnf

/-- States with the same edges are equal. -/
lemma State.eq_of_mem {state state' : State}
    (htransitions : ∀ edge, edge ∈ state.transitions ↔ edge ∈ state'.transitions)
    (hepsilon : ∀ target, target ∈ state.epsilon ↔ target ∈ state'.epsilon) : state = state' := by
  obtain ⟨transitions, epsilon⟩ := state
  obtain ⟨transitions', epsilon'⟩ := state'
  rw [State.mk.injEq]
  exact ⟨Std.ExtTreeSet.ext_mem htransitions, Std.ExtTreeSet.ext_mem hepsilon⟩

inductive Operation where
  | addState
  | addTransition (source : StateId) (octet : Octet) (target : StateId)
  | addEpsilon (source target : StateId)
deriving DecidableEq, Repr

namespace Operation

def source? : Operation → Option StateId
  | addState => none
  | addTransition source _ _ | addEpsilon source _ => some source

/-- An edge that reads an octet or nothing. -/
def addEdge (source : StateId) (label : Option Octet) (target : StateId) : Operation :=
  match label with
  | some octet => addTransition source octet target
  | none => addEpsilon source target

def allocations (operations : List Operation) : Nat := operations.count addState

/-- Every edge is added from a state that is allocated before it. -/
def AllocatesFirst (operations : List Operation) : Prop :=
  ∀ before operation after, operations = before ++ operation :: after →
    ∀ source ∈ operation.source?, source < allocations before

variable {operations : List Operation} {operation : Operation} {source : StateId}
  {label : Option Octet} {target : StateId}

@[simp] lemma addState_ne_addEdge : addState ≠ addEdge source label target := by
  cases label <;> simp [addEdge]

lemma allocations_concat : allocations (operations ++ [operation]) =
    allocations operations + if operation = addState then 1 else 0 := by
  simp [allocations, List.count_singleton]

lemma allocatesFirst_nil : AllocatesFirst [] := by
  intro before operation after h
  simp at h

lemma allocatesFirst_concat : AllocatesFirst (operations ++ [operation]) ↔
    AllocatesFirst operations ∧ ∀ source ∈ operation.source?, source < allocations operations := by
  constructor
  · intro h
    refine ⟨fun before other after heq => h before other (after ++ [operation]) (by simp [heq]), ?_⟩
    exact h operations operation [] rfl
  · rintro ⟨hbefore, hlast⟩ before other after heq
    rcases List.eq_nil_or_concat after with rfl | ⟨after, last, rfl⟩
    · obtain ⟨rfl, heq⟩ := List.append_inj' heq rfl
      obtain rfl : operation = other := by simpa using heq
      exact hlast
    · rw [List.concat_eq_append, ← List.cons_append, ← List.append_assoc] at heq
      obtain ⟨heq, -⟩ := List.append_inj' heq rfl
      exact hbefore before other after heq

end Operation

open Operation

/-! ### Runs -/

namespace Builder

/-- One operation, which needs the state that it adds an edge to. -/
def step? (builder : Builder) : Operation → Option Builder
  | .addState => some builder.addState.2
  | .addTransition source octet target => builder.addTransition? source octet target
  | .addEpsilon source target => builder.addEpsilon? source target

def run? (operations : List Operation) : Option Builder := operations.foldlM step? empty

variable {builder builder' : Builder} {operations : List Operation} {operation : Operation}
  {p q : StateId} {label : Option Octet}

lemma run?_nil : run? [] = some empty := rfl

lemma run?_concat :
    run? (operations ++ [operation]) = (run? operations).bind (·.step? operation) := by
  rw [run?, List.foldlM_append, ← run?]
  simp

lemma run?_concat_eq_some : run? (operations ++ [operation]) = some builder' ↔
    ∃ builder, run? operations = some builder ∧ builder.step? operation = some builder' := by
  rw [run?_concat, Option.bind_eq_some_iff]

lemma size_step? (h : builder.step? operation = some builder') :
    builder'.size = builder.size + if operation = .addState then 1 else 0 := by
  cases operation with
  | addState =>
    obtain rfl := Option.some.inj h
    simp
  | addTransition source octet target => simpa using size_addTransition? h
  | addEpsilon source target => simpa using size_addEpsilon? h

/-- An operation adds the edge that it is for. -/
lemma joins_step? (h : builder.step? operation = some builder') :
    Joins builder'.states p label q ↔
      Joins builder.states p label q ∨ operation = addEdge p label q := by
  cases operation with
  | addState =>
    obtain rfl := Option.some.inj h
    simp
  | addTransition source octet target =>
    rw [joins_addTransition? h]
    cases label <;> simp [addEdge, eq_comm]
  | addEpsilon source target =>
    rw [joins_addEpsilon? h]
    cases label <;> simp [addEdge, eq_comm]

lemma exists_step?_iff : (∃ builder', builder.step? operation = some builder') ↔
    ∀ source ∈ operation.source?, source < builder.size := by
  cases operation with
  | addState => simp [step?, source?]
  | addTransition | addEpsilon =>
    simp [step?, source?, addTransition?, addEpsilon?, modify?_eq_some]

/-- As many states are built as are allocated. -/
lemma size_run? (h : run? operations = some builder) : builder.size = allocations operations := by
  induction operations using List.reverseRecOn generalizing builder with
  | nil =>
    obtain rfl := Option.some.inj h
    rfl
  | append_singleton operations operation ih =>
    obtain ⟨before, hbefore, hlast⟩ := run?_concat_eq_some.mp h
    rw [size_step? hlast, ih hbefore, allocations_concat]

/-- Those edges are built that are added. -/
lemma joins_run? (h : run? operations = some builder) :
    Joins builder.states p label q ↔ addEdge p label q ∈ operations := by
  induction operations using List.reverseRecOn generalizing builder with
  | nil =>
    obtain rfl := Option.some.inj h
    simp
  | append_singleton operations operation ih =>
    obtain ⟨before, hbefore, hlast⟩ := run?_concat_eq_some.mp h
    rw [joins_step? hlast, ih hbefore]
    simp [eq_comm]

/-- A run succeeds if no edge is added from a state that is not allocated by then. -/
lemma exists_run?_iff :
    (∃ builder, run? operations = some builder) ↔ AllocatesFirst operations := by
  induction operations using List.reverseRecOn with
  | nil => exact ⟨fun _ => allocatesFirst_nil, fun _ => ⟨empty, run?_nil⟩⟩
  | append_singleton operations operation ih =>
    simp only [run?_concat_eq_some, allocatesFirst_concat, ← ih]
    constructor
    · rintro ⟨builder', builder, hbuilder, hlast⟩
      refine ⟨⟨builder, hbuilder⟩, ?_⟩
      rw [← size_run? hbuilder]
      exact exists_step?_iff.mp ⟨builder', hlast⟩
    · rintro ⟨⟨builder, hbuilder⟩, hsource⟩
      rw [← size_run? hbuilder, ← exists_step?_iff] at hsource
      obtain ⟨builder', hlast⟩ := hsource
      exact ⟨builder', builder, hbuilder, hlast⟩

/-- The number of states and the edges between them tell builders apart. -/
lemma eq_iff_joins : builder = builder' ↔ builder.size = builder'.size ∧
    ∀ p label q, Joins builder.states p label q ↔ Joins builder'.states p label q := by
  constructor
  · rintro rfl
    exact ⟨rfl, fun _ _ _ => Iff.rfl⟩
  · rintro ⟨hsize, hjoins⟩
    obtain ⟨states⟩ := builder
    obtain ⟨states'⟩ := builder'
    congr 1
    -- State by state, and each state is told by its two sets of edges.
    refine Array.ext hsize fun id hid hid' => ?_
    have hstate := Array.getElem?_eq_getElem hid
    have hstate' := Array.getElem?_eq_getElem hid'
    refine State.eq_of_mem (fun ⟨octet, target⟩ => ?_) fun target => ?_
    · simpa [joins_octet_iff, hstate, hstate'] using hjoins id (some octet) target
    · simpa [joins_epsilon_iff, hstate, hstate'] using hjoins id none target

lemma finish_eq_iff {entry entry' : StateId} {accepting accepting' : List StateId} :
    builder.finish entry accepting = builder'.finish entry' accepting' ↔
      builder = builder' ∧ entry = entry' ∧ ∀ id, id ∈ accepting ↔ id ∈ accepting' := by
  have haccepting : (Std.ExtTreeSet.ofList accepting : StateSet) = .ofList accepting' ↔
      ∀ id, id ∈ accepting ↔ id ∈ accepting' := by
    constructor
    · intro h id
      have hid : id ∈ (Std.ExtTreeSet.ofList accepting : StateSet) ↔
          id ∈ (Std.ExtTreeSet.ofList accepting' : StateSet) := by rw [h]
      simpa using hid
    · intro h
      exact Std.ExtTreeSet.ext_mem fun id => by simpa using h id
  obtain ⟨states⟩ := builder
  obtain ⟨states'⟩ := builder'
  rw [finish, finish, Nfa.mk.injEq, haccepting, Builder.mk.injEq]

end Builder

end AugmentedBnf
