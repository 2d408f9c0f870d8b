import Std.Data.ExtTreeMap.Lemmas
import Mathlib.Data.List.Perm.Basic
import AugmentedBnf.Proofs.Nfa.Operations

/-!
# Tables of edges

The edges of a state are a table as well: for every octet, the set of states that it leads to. A
table does not tell in which order the edges are added to it, and it has no entry without a state. So
an automaton is determined by the number of its states and by its edges, and by nothing else of how
it is built.

* `Table.ofEdges_congr`: the order of edges does not matter, nor does repetition.
* `State.next_eq_toList_table`: the states that an octet leads to are those of its entry.
* `Builder.determined_by_edges`: which runs of operations build the same automaton.
-/

namespace AugmentedBnf

/-- For every octet that is read, the states that it leads to. -/
abbrev Table := Std.ExtTreeMap Octet StateSet

namespace Table

variable {edges edges' : List Edge} {octet : Octet} {target : StateId}

/-- A table with one more edge. An octet that has no entry gets one first. -/
def add (table : Table) (edge : Edge) : Table :=
  table.insert edge.octet ((table.getD edge.octet ∅).insert edge.target)

def ofEdges (edges : List Edge) : Table := edges.foldl add ∅

lemma ofEdges_concat (edges : List Edge) (edge : Edge) :
    ofEdges (edges ++ [edge]) = (ofEdges edges).add edge := by
  simp [ofEdges]

lemma mem_ofEdges : octet ∈ ofEdges edges ↔ ∃ target, ⟨octet, target⟩ ∈ edges := by
  induction edges using List.reverseRecOn with
  | nil => simp [ofEdges]
  | append_singleton edges edge ih =>
    obtain ⟨first, last⟩ := edge
    rw [ofEdges_concat, add, Std.ExtTreeMap.mem_insert, ih, Std.compare_eq_iff_eq]
    grind

lemma mem_getD_ofEdges :
    target ∈ (ofEdges edges).getD octet ∅ ↔ ⟨octet, target⟩ ∈ edges := by
  induction edges using List.reverseRecOn with
  | nil => simp [ofEdges]
  | append_singleton edges edge ih =>
    obtain ⟨first, last⟩ := edge
    rw [ofEdges_concat, add, Std.ExtTreeMap.getD_insert]
    by_cases hoctet : first = octet
    · subst hoctet
      simp [ih, @eq_comm _ last, or_comm]
    · simp [hoctet, ih, Ne.symm hoctet]

/-- The same edges make the same table, in any order and however often they are added. -/
lemma ofEdges_congr (h : ∀ edge, edge ∈ edges ↔ edge ∈ edges') :
    ofEdges edges = ofEdges edges' := by
  refine Std.ExtTreeMap.ext_getElem? fun octet => ?_
  -- No entry and an empty one have the same default, hence both facts are needed.
  have hentry : (ofEdges edges).getD octet ∅ = (ofEdges edges').getD octet ∅ :=
    Std.ExtTreeSet.ext_mem fun target => by rw [mem_getD_ofEdges, mem_getD_ofEdges, h]
  have hmem : octet ∈ ofEdges edges ↔ octet ∈ ofEdges edges' := by
    simp only [mem_ofEdges, h]
  have hsome : ∀ {table : Table}, octet ∈ table → table[octet]? = some (table.getD octet ∅) :=
    fun hoctet => Std.ExtTreeMap.getElem?_eq_some_getD hoctet
  by_cases hoctet : octet ∈ ofEdges edges
  · rw [hsome hoctet, hsome (hmem.mp hoctet), hentry]
  · rw [Std.ExtTreeMap.getElem?_eq_none hoctet,
      Std.ExtTreeMap.getElem?_eq_none (mt hmem.mpr hoctet)]

end Table

namespace State

variable {state : State} {octet : Octet} {target : StateId}

def table (state : State) : Table := .ofEdges state.transitions.toList

lemma mem_next : target ∈ state.next octet ↔ ⟨octet, target⟩ ∈ state.transitions := by
  simp only [next, List.mem_map, List.mem_filter, Std.ExtTreeSet.mem_toList, beq_iff_eq]
  constructor
  · rintro ⟨⟨_, _⟩, ⟨hedge, rfl⟩, rfl⟩
    exact hedge
  · intro hedge
    exact ⟨_, ⟨hedge, rfl⟩, rfl⟩

/-- Edges of one octet are ordered by the states that they lead to. -/
lemma pairwise_next (state : State) (octet : Octet) : (state.next octet).Pairwise (· < ·) := by
  rw [next, List.pairwise_map]
  refine (Std.ExtTreeSet.ordered_toList.filter _).imp_of_mem fun {a b} ha hb hlt => ?_
  obtain ⟨-, ha⟩ := List.mem_filter.mp ha
  obtain ⟨-, hb⟩ := List.mem_filter.mp hb
  have hcompare : (compare a.octet b.octet).then (compare a.target b.target) = .lt := hlt
  rw [beq_iff_eq.mp ha, beq_iff_eq.mp hb, Std.compare_self, Ordering.eq_then] at hcompare
  exact Nat.compare_eq_lt.mp hcompare

/-- The states that an octet leads to are those of its entry, and none if it has no entry. -/
lemma next_eq_toList_table (state : State) (octet : Octet) :
    state.next octet = (state.table.getD octet ∅).toList := by
  have hordered : (state.table.getD octet ∅).toList.Pairwise (· < ·) :=
    Std.ExtTreeSet.ordered_toList.imp Nat.compare_eq_lt.mp
  -- Both lists are strictly ascending and have the same members.
  refine List.Perm.eq_of_pairwise (fun a b _ _ hab hba => absurd hab (Nat.lt_asymm hba))
    (state.pairwise_next octet) hordered ?_
  rw [List.perm_ext_iff_of_nodup ((state.pairwise_next octet).imp Nat.ne_of_lt)
    (hordered.imp Nat.ne_of_lt)]
  intro target
  rw [mem_next, Std.ExtTreeSet.mem_toList, table, Table.mem_getD_ofEdges,
    Std.ExtTreeSet.mem_toList]

end State

/-! ### Runs of operations -/

open Operation

/-- The edge that an operation adds to a state, if it reads an octet. -/
def Operation.edgeFrom? (id : StateId) : Operation → Option Edge
  | addTransition source octet target => if source = id then some ⟨octet, target⟩ else none
  | addState | addEpsilon _ _ => none

lemma Operation.mem_filterMap_edgeFrom? {operations : List Operation} {id : StateId} {edge : Edge} :
    edge ∈ operations.filterMap (edgeFrom? id) ↔
      addTransition id edge.octet edge.target ∈ operations := by
  rw [List.mem_filterMap]
  constructor
  · rintro ⟨operation, hmem, hedge⟩
    cases operation with
    | addState | addEpsilon => cases hedge
    | addTransition source octet target =>
      simp only [edgeFrom?] at hedge
      split_ifs at hedge with hsource
      cases hedge
      exact hsource ▸ hmem
  · intro hmem
    exact ⟨_, hmem, by simp [edgeFrom?]⟩

namespace Builder

variable {builder : Builder} {operations : List Operation} {id : StateId} {state : State}

/-- The edges of a state are those that are added to it. -/
lemma mem_transitions_run? (h : run? operations = some builder)
    (hstate : builder.states[id]? = some state) {octet : Octet} {target : StateId} :
    ⟨octet, target⟩ ∈ state.transitions ↔ addTransition id octet target ∈ operations := by
  have hjoins : Joins builder.states id (some octet) target ↔
      addEdge id (some octet) target ∈ operations := joins_run? h
  simpa [joins_octet_iff, hstate, addEdge] using hjoins

/-- The table of a state is that of the edges added to it, in the order in which they are added. -/
lemma table_run? (h : run? operations = some builder)
    (hstate : builder.states[id]? = some state) :
    state.table = .ofEdges (operations.filterMap (edgeFrom? id)) := by
  refine Table.ofEdges_congr fun edge => ?_
  rw [Std.ExtTreeSet.mem_toList, mem_filterMap_edgeFrom?]
  exact mem_transitions_run? h hstate

/-- Two runs of operations, each of which adds edges from allocated states only, build the same
automaton if they allocate as many states and add the same edges, with the same entry and accepting
states, and otherwise different ones. An octet leads from a state to those states that edges are
added to, in ascending order. -/
theorem determined_by_edges {first second : List Operation} (hfirst : AllocatesFirst first)
    (hsecond : AllocatesFirst second) :
    ∃ builder builder', run? first = some builder ∧ run? second = some builder' ∧
      ∀ entry entry' accepting accepting',
        (builder.finish entry accepting = builder'.finish entry' accepting' ↔
          allocations first = allocations second ∧
          (∀ source octet target, addTransition source octet target ∈ first ↔
            addTransition source octet target ∈ second) ∧
          (∀ source target, addEpsilon source target ∈ first ↔ addEpsilon source target ∈ second) ∧
          entry = entry' ∧ ∀ id, id ∈ accepting ↔ id ∈ accepting') ∧
        ∀ id < allocations first, ∃ state,
          (builder.finish entry accepting).state? id = some state ∧
          state.table = .ofEdges (first.filterMap (edgeFrom? id)) ∧
          ∀ octet,
            (∀ target, target ∈ state.next octet ↔ addTransition id octet target ∈ first) ∧
            (state.next octet).Pairwise (· < ·) ∧
            state.next octet = (state.table.getD octet ∅).toList := by
  obtain ⟨builder, hbuilder⟩ := exists_run?_iff.mpr hfirst
  obtain ⟨builder', hbuilder'⟩ := exists_run?_iff.mpr hsecond
  refine ⟨builder, builder', hbuilder, hbuilder', fun entry entry' accepting accepting' => ⟨?_, ?_⟩⟩
  · have hedges : (∀ p label q, addEdge p label q ∈ first ↔ addEdge p label q ∈ second) ↔
        (∀ source octet target, addTransition source octet target ∈ first ↔
          addTransition source octet target ∈ second) ∧
        ∀ source target, addEpsilon source target ∈ first ↔ addEpsilon source target ∈ second := by
      constructor
      · intro h
        exact ⟨fun source octet target => h source (some octet) target,
          fun source target => h source none target⟩
      · rintro ⟨htransition, hepsilon⟩ source label target
        cases label with
        | none => exact hepsilon source target
        | some octet => exact htransition source octet target
    simp only [finish_eq_iff, eq_iff_joins, size_run? hbuilder, size_run? hbuilder',
      joins_run? hbuilder, joins_run? hbuilder', hedges, and_assoc]
  · intro id hid
    rw [← size_run? hbuilder] at hid
    have hstate : builder.states[id]? = some builder.states[id] := Array.getElem?_eq_getElem hid
    refine ⟨builder.states[id], hstate, table_run? hbuilder hstate, fun octet => ⟨?_, ?_, ?_⟩⟩
    · intro target
      rw [State.mem_next, mem_transitions_run? hbuilder hstate]
    · exact State.pairwise_next _ octet
    · exact State.next_eq_toList_table _ octet

/-- Edges to states that are not allocated yet, one of them twice. -/
def lateStates : List Operation :=
  [.addState, .addTransition 0 0x61 2, .addEpsilon 0 1, .addState, .addTransition 0 0x61 1, .addState,
    .addTransition 0 0x61 2]

/-- The same edges, after all states. -/
def earlyStates : List Operation :=
  [.addState, .addState, .addState, .addTransition 0 0x61 1, .addTransition 0 0x61 2,
    .addEpsilon 0 1]

/-- Both runs build the same automaton, in which one octet leads to two states. -/
theorem determined_by_edges_lateStates :
    AllocatesFirst lateStates ∧ AllocatesFirst earlyStates ∧
      ∃ builder builder', run? lateStates = some builder ∧ run? earlyStates = some builder' ∧
        builder.finish 0 [2, 1, 2] = builder'.finish 0 [1, 2] ∧
        ∃ state, (builder.finish 0 [2, 1, 2]).state? 0 = some state ∧
          state.next 0x61 = [1, 2] := by
  have hlate : AllocatesFirst lateStates := exists_run?_iff.mp ⟨_, rfl⟩
  have hearly : AllocatesFirst earlyStates := exists_run?_iff.mp ⟨_, rfl⟩
  obtain ⟨builder, builder', hbuilder, hbuilder', h⟩ := determined_by_edges hlate hearly
  obtain ⟨hequal, hstates⟩ := h 0 0 [2, 1, 2] [1, 2]
  obtain ⟨state, hstate, htable, hnext⟩ := hstates 0 (by decide)
  refine ⟨hlate, hearly, builder, builder', hbuilder, hbuilder', hequal.mpr ?_, state, hstate, ?_⟩
  · simp [lateStates, earlyStates, allocations]
    grind
  · rw [(hnext 0x61).2.2, htable]
    decide +kernel

end Builder

end AugmentedBnf
