import Mathlib.Computability.Language
import Mathlib.Order.CompletePartialOrder
import AugmentedBnf.Nfa.Builder

/-!
# Walks

A walk through an automaton follows edges from state to state and spells the octets that they
read. A word is accepted if a walk from the entry to an accepting state spells it.

The tails of a state are words that may still be spelled from it. If a family of tails is closed
under the edges, it bounds every walk; this is how words are shown not to be accepted.
-/

namespace AugmentedBnf

/-- There is an edge from one state to another, which reads an octet or nothing. -/
inductive Joins (states : Array State) : StateId → Option Octet → StateId → Prop
  | octet {source target state octet} (hstate : states[source]? = some state)
      (hedge : ⟨octet, target⟩ ∈ state.transitions) : Joins states source (some octet) target
  | epsilon {source target state} (hstate : states[source]? = some state)
      (hedge : target ∈ state.epsilon) : Joins states source none target

lemma joins_octet_iff {states : Array State} {source target : StateId} {octet : Octet} :
    Joins states source (some octet) target ↔
      ∃ state, states[source]? = some state ∧ ⟨octet, target⟩ ∈ state.transitions := by
  constructor
  · rintro (⟨hstate, hedge⟩)
    exact ⟨_, hstate, hedge⟩
  · rintro ⟨state, hstate, hedge⟩
    exact .octet hstate hedge

lemma joins_epsilon_iff {states : Array State} {source target : StateId} :
    Joins states source none target ↔
      ∃ state, states[source]? = some state ∧ target ∈ state.epsilon := by
  constructor
  · rintro (_ | ⟨hstate, hedge⟩)
    exact ⟨_, hstate, hedge⟩
  · rintro ⟨state, hstate, hedge⟩
    exact .epsilon hstate hedge

/-- A walk from one state to another, and the word it spells. -/
inductive Walk (states : Array State) : StateId → List Octet → StateId → Prop
  | stay (id : StateId) : Walk states id [] id
  | step {source label middle word target} (hedge : Joins states source label middle)
      (hwalk : Walk states middle word target) :
      Walk states source (label.toList ++ word) target

/-- A walk from the entry to an accepting state spells a word. -/
def Nfa.Accepts (nfa : Nfa) (word : List Octet) : Prop :=
  ∃ target, nfa.isAccepting target ∧ Walk nfa.states nfa.entry word target

def Nfa.language (nfa : Nfa) : Language Octet := {word | nfa.Accepts word}

lemma Nfa.mem_language {nfa : Nfa} {word : List Octet} :
    word ∈ nfa.language ↔ nfa.Accepts word := Iff.rfl

namespace Walk

variable {states states' : Array State} {p q r : StateId} {v w : List Octet}

lemma append (hv : Walk states p v q) (hw : Walk states q w r) : Walk states p (v ++ w) r := by
  induction hv with
  | stay => exact hw
  | step hedge _ ih =>
    rw [List.append_assoc]
    exact .step hedge (ih hw)

lemma octet {octet : Octet} (hedge : Joins states p (some octet) q) :
    Walk states p [octet] q := .step hedge (.stay q)

lemma epsilon (hedge : Joins states p none q) : Walk states p [] q := .step hedge (.stay q)

/-- A walk stays one if there are more edges. -/
lemma mono (hmono : ∀ p label q, Joins states p label q → Joins states' p label q)
    (hwalk : Walk states p w q) : Walk states' p w q := by
  induction hwalk with
  | stay id => exact .stay id
  | step hedge _ ih => exact .step (hmono _ _ _ hedge) ih

/-- Words of walks from a state to itself may be spelled one after the other. -/
lemma kstar {l : Language Octet} (hl : ∀ w ∈ l, Walk states p w p) (hw : w ∈ KStar.kstar l) :
    Walk states p w p := by
  obtain ⟨words, rfl, hwords⟩ := Language.mem_kstar.mp hw
  clear hw
  induction words with
  | nil => exact .stay p
  | cons word words ih =>
    rw [List.flatten_cons]
    exact (hl word (hwords word (by simp))).append
      (ih fun word hword => hwords word (List.mem_cons_of_mem _ hword))

end Walk

/-- Every edge prolongs the tails of the state it leads to into tails of the state it leaves. -/
def ClosedTails (states : Array State) (tails : StateId → Language Octet) : Prop :=
  ∀ p label q, Joins states p label q → ∀ w ∈ tails q, label.toList ++ w ∈ tails p

/-- Closed tails bound all walks. -/
lemma ClosedTails.append_mem {states : Array State} {tails : StateId → Language Octet}
    (htails : ClosedTails states tails) {p q : StateId} {v w : List Octet}
    (hwalk : Walk states p v q) (hw : w ∈ tails q) : v ++ w ∈ tails p := by
  induction hwalk with
  | stay => exact hw
  | step hedge _ ih =>
    rw [List.append_assoc]
    exact htails _ _ _ hedge _ (ih hw)

/-! ### Edges of a builder -/

namespace Builder

variable {builder builder' : Builder} {id source target p q : StateId} {octet : Octet}
  {label : Option Octet}

@[simp] lemma joins_empty : ¬ Joins empty.states p label q := by
  rintro (⟨hstate, -⟩ | ⟨hstate, -⟩) <;> simp [empty] at hstate

@[simp] lemma addState_fst : builder.addState.1 = builder.size := rfl

@[simp] lemma size_addState : builder.addState.2.size = builder.size + 1 := by
  simp [addState, size]

/-- A new state has no edges. -/
@[simp] lemma joins_addState :
    Joins builder.addState.2.states p label q ↔ Joins builder.states p label q := by
  have hget : ∀ state, builder.addState.2.states[p]? = some state ↔
      builder.states[p]? = some state ∨ p = builder.size ∧ state = .isolated := by
    intro state
    simp only [addState, size, Array.getElem?_push]
    split_ifs with hp
    · subst hp
      simp [eq_comm]
    · simp [hp]
  constructor
  · rintro (⟨hstate, hedge⟩ | ⟨hstate, hedge⟩)
    all_goals
      rcases (hget _).mp hstate with hstate | ⟨-, rfl⟩
      · first
          | exact .octet hstate hedge
          | exact .epsilon hstate hedge
      · simp [State.isolated] at hedge
  · rintro (⟨hstate, hedge⟩ | ⟨hstate, hedge⟩)
    · exact .octet ((hget _).mpr (.inl hstate)) hedge
    · exact .epsilon ((hget _).mpr (.inl hstate)) hedge

/-- Edges can be changed of allocated states only, and one state at a time. -/
lemma modify?_eq_some {change : State → State} :
    builder.modify? id change = some builder' ↔
      id < builder.size ∧ builder' = ⟨builder.states.modify id change⟩ := by
  unfold modify?
  split_ifs with h <;> simp [size, h, eq_comm]

lemma size_modify? {change : State → State} (h : builder.modify? id change = some builder') :
    builder'.size = builder.size := by
  obtain ⟨-, rfl⟩ := modify?_eq_some.mp h
  simp [size]

lemma exists_modify? (hid : id < builder.size) (change : State → State) :
    ∃ builder', builder.modify? id change = some builder' :=
  ⟨_, modify?_eq_some.mpr ⟨hid, rfl⟩⟩

lemma getElem?_modify? {change : State → State} (h : builder.modify? id change = some builder') :
    builder'.states[p]? = if p = id then builder.states[p]?.map change
      else builder.states[p]? := by
  obtain ⟨-, rfl⟩ := modify?_eq_some.mp h
  simp [Array.getElem?_modify, eq_comm]

lemma size_addEpsilon? (h : builder.addEpsilon? source target = some builder') :
    builder'.size = builder.size := size_modify? h

lemma size_addTransition? (h : builder.addTransition? source octet target = some builder') :
    builder'.size = builder.size := size_modify? h

lemma joins_addEpsilon? (h : builder.addEpsilon? source target = some builder') :
    Joins builder'.states p label q ↔
      Joins builder.states p label q ∨ p = source ∧ label = none ∧ q = target := by
  obtain ⟨hlt, -⟩ := modify?_eq_some.mp h
  have hget := getElem?_modify? (p := p) h
  by_cases hp : p = source
  · subst hp
    have hold : builder.states[p]? = some builder.states[p] := Array.getElem?_eq_getElem hlt
    cases label with
    | none => simp [joins_epsilon_iff, hget, hold, or_comm, @eq_comm _ q]
    | some octet => simp [joins_octet_iff, hget, hold]
  · cases label with
    | none => simp [joins_epsilon_iff, hget, hp]
    | some octet => simp [joins_octet_iff, hget, hp]

lemma joins_addTransition? (h : builder.addTransition? source octet target = some builder') :
    Joins builder'.states p label q ↔
      Joins builder.states p label q ∨ p = source ∧ label = some octet ∧ q = target := by
  obtain ⟨hlt, -⟩ := modify?_eq_some.mp h
  have hget := getElem?_modify? (p := p) h
  by_cases hp : p = source
  · subst hp
    have hold : builder.states[p]? = some builder.states[p] := Array.getElem?_eq_getElem hlt
    cases label with
    | none => simp [joins_epsilon_iff, hget, hold]
    | some octet => simp [joins_octet_iff, hget, hold, or_comm, @eq_comm _ octet, @eq_comm _ q]
  · cases label with
    | none => simp [joins_epsilon_iff, hget, hp]
    | some octet => simp [joins_octet_iff, hget, hp]

lemma exists_foldlM_addTransition? (hsource : source < builder.size) (octets : List Octet) :
    ∃ builder', octets.foldlM (fun builder octet => builder.addTransition? source octet target)
      builder = some builder' := by
  induction octets generalizing builder with
  | nil => exact ⟨builder, rfl⟩
  | cons octet octets ih =>
    obtain ⟨next, hnext⟩ := exists_modify? hsource
      fun state => { state with transitions := state.transitions.insert ⟨octet, target⟩ }
    obtain ⟨builder', h⟩ := ih (size_addTransition? hnext ▸ hsource)
    refine ⟨builder', ?_⟩
    rw [List.foldlM_cons, Option.bind_eq_bind, Option.bind_eq_some_iff]
    exact ⟨next, hnext, h⟩

/-- Edges on several octets are added one after the other. -/
lemma joins_foldlM_addTransition? {octets : List Octet}
    (h : octets.foldlM (fun builder octet => builder.addTransition? source octet target) builder =
      some builder') :
    builder'.size = builder.size ∧ ∀ p label q, Joins builder'.states p label q ↔
      Joins builder.states p label q ∨ p = source ∧ q = target ∧ ∃ o ∈ octets, label = some o := by
  induction octets generalizing builder with
  | nil =>
    obtain rfl : builder = builder' := by simpa using h
    simp
  | cons octet octets ih =>
    simp only [List.foldlM_cons, Option.bind_eq_bind, Option.bind_eq_some_iff] at h
    obtain ⟨next, hnext, h⟩ := h
    obtain ⟨hsize, hjoins⟩ := ih h
    refine ⟨hsize.trans (size_addTransition? hnext), fun p label q => ?_⟩
    rw [hjoins, joins_addTransition? hnext]
    grind

/-- A builder has the states and the edges of another one, and perhaps more. -/
structure Extends (builder builder' : Builder) : Prop where
  size_le : builder.size ≤ builder'.size
  joins : ∀ {p label q}, Joins builder.states p label q → Joins builder'.states p label q

lemma Extends.trans {builder₁ builder₂ builder₃ : Builder} (h₁ : builder₁.Extends builder₂)
    (h₂ : builder₂.Extends builder₃) : builder₁.Extends builder₃ :=
  ⟨h₁.size_le.trans h₂.size_le, h₂.joins ∘ h₁.joins⟩

lemma Extends.walk {builder₁ builder₂ : Builder} (h : builder₁.Extends builder₂)
    {word : List Octet} (hwalk : Walk builder₁.states p word q) :
    Walk builder₂.states p word q := hwalk.mono fun _ _ _ => h.joins

lemma extends_addState : builder.Extends builder.addState.2 :=
  ⟨by simp, joins_addState.mpr⟩

lemma extends_addEpsilon? (h : builder.addEpsilon? source target = some builder') :
    builder.Extends builder' := ⟨(size_addEpsilon? h).ge, (joins_addEpsilon? h).mpr ∘ .inl⟩

/-! ### Tails of a builder -/

/-- No edge leads out of the allocated states, and the tails are closed under the edges. -/
structure HasTails (builder : Builder) (tails : StateId → Language Octet) : Prop where
  target_lt : ∀ {p label q}, Joins builder.states p label q → q < builder.size
  closed : ClosedTails builder.states tails

namespace HasTails

variable {tails : StateId → Language Octet}

/-- The tails of a new state may be any, since no edge leads to it yet. -/
lemma addState (h : builder.HasTails tails) (l : Language Octet) :
    builder.addState.2.HasTails (Function.update tails builder.size l) where
  target_lt hedge := (h.target_lt (joins_addState.mp hedge)).trans (by simp)
  closed p label q hedge w hw := by
    rw [joins_addState] at hedge
    -- An edge from or to the new state would have been one of a builder without it.
    have hq : q ≠ builder.size := (h.target_lt hedge).ne
    rw [Function.update_of_ne hq] at hw
    have hp : p ≠ builder.size := by
      rintro rfl
      rcases hedge with ⟨hstate, -⟩ | ⟨hstate, -⟩ <;> simp [size] at hstate
    rw [Function.update_of_ne hp]
    exact h.closed p label q hedge w hw

lemma addEpsilon? (h : builder.HasTails tails) (htarget : target < builder.size)
    (hadd : builder.addEpsilon? source target = some builder')
    (hle : tails target ≤ tails source) : builder'.HasTails tails where
  target_lt hedge := by
    rw [size_addEpsilon? hadd]
    rcases (joins_addEpsilon? hadd).mp hedge with hedge | ⟨-, -, rfl⟩
    · exact h.target_lt hedge
    · exact htarget
  closed p label q hedge w hw := by
    rcases (joins_addEpsilon? hadd).mp hedge with hedge | ⟨rfl, rfl, rfl⟩
    · exact h.closed p label q hedge w hw
    · exact hle hw

lemma foldlM_addTransition? {octets : List Octet} (h : builder.HasTails tails)
    (htarget : target < builder.size)
    (hadd : octets.foldlM (fun builder octet => builder.addTransition? source octet target)
      builder = some builder')
    (hle : ∀ octet ∈ octets, ∀ w ∈ tails target, octet :: w ∈ tails source) :
    builder'.HasTails tails := by
  obtain ⟨hsize, hjoins⟩ := joins_foldlM_addTransition? hadd
  constructor
  · intro p label q hedge
    rw [hsize]
    rcases (hjoins _ _ _).mp hedge with hedge | ⟨-, rfl, -⟩
    · exact h.target_lt hedge
    · exact htarget
  · intro p label q hedge w hw
    rcases (hjoins _ _ _).mp hedge with hedge | ⟨rfl, rfl, octet, hoctet, rfl⟩
    · exact h.closed p label q hedge w hw
    · exact hle octet hoctet w hw

end HasTails

end Builder

end AugmentedBnf
