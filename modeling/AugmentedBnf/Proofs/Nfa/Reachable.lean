import Mathlib.Algebra.BigOperators.Fin
import AugmentedBnf.Nfa.Reachable
import AugmentedBnf.Proofs.Nfa.Walk

/-!
# The states that are found by following edges

A traversal takes waiting states one by one. Each of them it has seen already, or it goes over the
edges that leave it, once and for all. So the edges that are left and the states that wait become
fewer with every turn, and when nothing waits any more, no edge leads out of the states seen.

* `Nfa.Explores.skip`, `Nfa.Explores.visit`: what every turn keeps.
* `Nfa.mem_reachable`: the states found are those that walks lead to from the entry.
-/

namespace AugmentedBnf

/-- A walk leads from one state to another, whatever it spells. -/
def Reaches (states : Array State) (source target : StateId) : Prop :=
  ∃ word, Walk states source word target

namespace Reaches

variable {states : Array State} {p q r : StateId}

lemma refl (id : StateId) : Reaches states id id := ⟨[], .stay id⟩

lemma trans (hpq : Reaches states p q) (hqr : Reaches states q r) : Reaches states p r := by
  obtain ⟨v, hv⟩ := hpq
  obtain ⟨w, hw⟩ := hqr
  exact ⟨v ++ w, hv.append hw⟩

lemma of_joins {label : Option Octet} (hedge : Joins states p label q) : Reaches states p q :=
  ⟨_, .step hedge (.stay q)⟩

/-- What holds of a state and is handed on by edges holds of every state it leads to. -/
lemma induction {P : StateId → Prop} (hpq : Reaches states p q) (hp : P p)
    (hstep : ∀ source label target, P source → Joins states source label target → P target) :
    P q := by
  obtain ⟨word, hwalk⟩ := hpq
  induction hwalk with
  | stay => exact hp
  | step hedge _ ih => exact ih (hstep _ _ _ hp hedge)

end Reaches

namespace Nfa

variable {nfa : Nfa} {id next : StateId} {waiting : List StateId} {seen : StateSet} {turns : Nat}

lemma mem_successors_iff :
    next ∈ nfa.successors id ↔ ∃ label, Joins nfa.states id label next := by
  simp only [Option.exists, joins_epsilon_iff, joins_octet_iff, successors, state?]
  cases nfa.states[id]? with
  | none => simp
  | some state =>
    have htarget : (∃ edge ∈ state.transitions, edge.target = next) ↔
        ∃ octet, ⟨octet, next⟩ ∈ state.transitions := by
      constructor
      · rintro ⟨⟨octet, _⟩, hedge, rfl⟩
        exact ⟨octet, hedge⟩
      · rintro ⟨octet, hedge⟩
        exact ⟨⟨octet, next⟩, hedge, rfl⟩
    simp [State.successors, htarget, or_comm]

lemma successors_of_size_le (h : nfa.size ≤ id) : nfa.successors id = [] := by
  simp [successors, state?, Array.getElem?_eq_none h]

/-! ### Turns of a traversal -/

/-- What is known of the states that wait and of those seen. -/
structure Explores (nfa : Nfa) (waiting : List StateId) (seen : StateSet) : Prop where
  sound : ∀ {id}, id ∈ waiting ∨ id ∈ seen → Reaches nfa.states nfa.entry id
  entry : nfa.entry ∈ waiting ∨ nfa.entry ∈ seen
  closed : ∀ {id next}, id ∈ seen → next ∈ nfa.successors id → next ∈ waiting ∨ next ∈ seen

namespace Explores

lemma start (nfa : Nfa) : nfa.Explores [nfa.entry] ∅ where
  sound h := by
    obtain rfl : _ = nfa.entry := by simpa using h
    exact .refl _
  entry := .inl List.mem_cons_self
  closed h := by simp at h

/-- The states that wait may be put in another order, and those that are seen already left out. -/
lemma restrict {others : List StateId} (h : nfa.Explores waiting seen)
    (hsubset : others ⊆ waiting) (hwaiting : ∀ id ∈ waiting, id ∈ others ∨ id ∈ seen) :
    nfa.Explores others seen := by
  have hrest : ∀ {id}, id ∈ waiting ∨ id ∈ seen → id ∈ others ∨ id ∈ seen :=
    fun hid => hid.elim (hwaiting _) .inr
  exact ⟨fun hid => h.sound (hid.imp_left fun hother => hsubset hother), hrest h.entry,
    fun hid hnext => hrest (h.closed hid hnext)⟩

/-- A state that is seen already need not wait. -/
lemma skip (h : nfa.Explores (id :: waiting) seen) (hid : id ∈ seen) :
    nfa.Explores waiting seen := by
  refine h.restrict (List.subset_cons_self id waiting) fun other hother => ?_
  obtain rfl | hother := List.mem_cons.mp hother
  · exact .inr hid
  · exact .inl hother

/-- A state that is seen for the first time makes those wait that its edges lead to. -/
lemma visit (h : nfa.Explores (id :: waiting) seen) :
    nfa.Explores (nfa.successors id ++ waiting) (seen.insert id) := by
  have hrest : ∀ {other}, other ∈ id :: waiting ∨ other ∈ seen →
      other ∈ nfa.successors id ++ waiting ∨ other ∈ seen.insert id := by
    grind
  refine ⟨fun {other} hother => ?_, hrest h.entry, fun {other next} hother hnext => ?_⟩
  · -- A state that waits anew is one edge behind the state visited.
    have hcases : other ∈ nfa.successors id ∨ other ∈ id :: waiting ∨ other ∈ seen := by
      grind
    rcases hcases with hnext | hold
    · obtain ⟨label, hedge⟩ := mem_successors_iff.mp hnext
      exact (h.sound (.inl List.mem_cons_self)).trans (.of_joins hedge)
    · exact h.sound hold
  · by_cases hsame : other = id
    · subst hsame
      exact .inl (List.mem_append_left _ hnext)
    · exact hrest (h.closed (by grind) hnext)

/-- When no state waits, those seen are the ones that the entry leads to. -/
lemma mem_iff (h : nfa.Explores [] seen) :
    id ∈ seen ↔ Reaches nfa.states nfa.entry id := by
  -- The entry has been seen, and edges from states seen lead to states seen.
  refine ⟨fun hid => h.sound (.inr hid), fun hreach => ?_⟩
  refine hreach.induction (h.entry.resolve_left List.not_mem_nil) ?_
  intro source label target hsource hedge
  exact (h.closed hsource (mem_successors_iff.mpr ⟨label, hedge⟩)).resolve_left List.not_mem_nil

end Explores

/-- The number of edges that leave states not seen. -/
def unexplored (nfa : Nfa) (seen : StateSet) : Nat :=
  ∑ id ∈ (Finset.range nfa.size).filter (· ∉ seen), (nfa.successors id).length

lemma edgeCount_eq_sum (nfa : Nfa) :
    nfa.edgeCount = ∑ id ∈ Finset.range nfa.size, (nfa.successors id).length := by
  have hstates : nfa.edgeCount =
      (nfa.states.toList.map fun state => state.successors.length).sum := by
    rw [edgeCount, ← Array.foldl_toList, List.sum_eq_foldl, List.foldl_map]
  have hsuccessors : ∀ id : Fin nfa.states.toList.length,
      (nfa.successors id).length = nfa.states.toList[id].successors.length := by
    intro id
    simp [successors, state?]
  rw [hstates, size, ← Array.length_toList, Finset.sum_range]
  simp only [hsuccessors]
  exact (Fin.sum_univ_fun_getElem _ fun state : State => state.successors.length).symm

lemma unexplored_empty (nfa : Nfa) : nfa.unexplored ∅ = nfa.edgeCount := by
  rw [unexplored, Finset.filter_true_of_mem fun _ _ => Std.ExtTreeSet.not_mem_empty,
    edgeCount_eq_sum]

lemma unexplored_insert (hid : id ∉ seen) :
    (nfa.successors id).length + nfa.unexplored (seen.insert id) = nfa.unexplored seen := by
  have herase : (Finset.range nfa.size).filter (· ∉ seen.insert id) =
      ((Finset.range nfa.size).filter (· ∉ seen)).erase id := by
    ext other
    simp only [Finset.mem_filter, Finset.mem_erase, Std.ExtTreeSet.mem_insert, Nat.compare_eq_eq]
    grind
  rw [unexplored, unexplored, herase]
  -- States that are not allocated have no edges, so the sum does not notice them.
  by_cases hsize : id < nfa.size
  · have hmem : id ∈ (Finset.range nfa.size).filter (· ∉ seen) :=
      Finset.mem_filter.mpr ⟨Finset.mem_range.mpr hsize, hid⟩
    exact Finset.add_sum_erase _ (fun id => (nfa.successors id).length) hmem
  · have hnotMem : id ∉ (Finset.range nfa.size).filter (· ∉ seen) :=
      fun hmem => hsize (Finset.mem_range.mp (Finset.mem_filter.mp hmem).1)
    rw [Finset.erase_eq_of_notMem hnotMem, successors_of_size_le (not_lt.mp hsize),
      List.length_nil, Nat.zero_add]

/-- With a turn for every state that waits and every edge that is left, a traversal finds all states
that the entry leads to. -/
lemma mem_explore (h : nfa.Explores waiting seen)
    (hturns : waiting.length + nfa.unexplored seen ≤ turns) :
    id ∈ nfa.explore turns waiting seen ↔ Reaches nfa.states nfa.entry id := by
  induction turns generalizing waiting seen with
  | zero =>
    obtain rfl : waiting = [] := List.eq_nil_of_length_eq_zero (by omega)
    exact h.mem_iff
  | succ turns ih =>
    cases waiting with
    | nil => exact h.mem_iff
    | cons first waiting =>
      rw [List.length_cons] at hturns
      rw [explore]
      -- A state seen already costs its own turn only, and a new one is paid for by its edges.
      split_ifs with hfirst
      · exact ih (h.skip hfirst) (by omega)
      · have hedges := nfa.unexplored_insert hfirst
        refine ih h.visit ?_
        rw [List.length_append]
        omega

/-- The states found are those that walks lead to from the entry. -/
lemma mem_reachable : id ∈ nfa.reachable ↔ Reaches nfa.states nfa.entry id := by
  refine mem_explore (.start nfa) ?_
  rw [List.length_singleton, unexplored_empty, Nat.add_comm]

/-- If the states found are those that are allocated, they are listed by their numbers. -/
lemma toList_reachable (h : ∀ id, Reaches nfa.states nfa.entry id ↔ id < nfa.size) :
    nfa.reachable.toList = List.range nfa.size := by
  have hordered : nfa.reachable.toList.Pairwise (· < ·) := by
    refine Std.ExtTreeSet.ordered_toList.imp fun {a b} hlt => ?_
    exact Nat.compare_eq_lt.mp hlt
  refine hordered.eq_of_mem_iff List.pairwise_lt_range fun id => ?_
  rw [Std.ExtTreeSet.mem_toList, mem_reachable, h, List.mem_range]

end Nfa

end AugmentedBnf
