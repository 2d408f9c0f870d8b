import Std.Data.ExtTreeSet
import AugmentedBnf.Octet

/-!
# Finite automata

A nondeterministic finite automaton with edges that read an octet and edges that read nothing. The
states of an automaton are numbered in the order in which they are allocated. The edges of a state
are sets, so equal automata are those with the same states, edges, entry and accepting states.
-/

namespace AugmentedBnf

/-- The number of a state. -/
abbrev StateId := Nat

/-- A set of states, in ascending order. -/
abbrev StateSet := Std.ExtTreeSet StateId

/-- How messages name a state. -/
def StateId.label (state : StateId) : String := "q" ++ toString state

/-- An edge that reads an octet, as seen from the state it leaves. -/
structure Edge where
  octet : Octet
  target : StateId
deriving DecidableEq, Repr

namespace Edge

/-- Edges are ordered by their octets, and those of one octet by their targets. -/
instance : Ord Edge where
  compare a b := (compare a.octet b.octet).then (compare a.target b.target)

instance : Std.TransOrd Edge :=
  inferInstanceAs (Std.TransCmp (compareLex (compareOn octet) (compareOn target)))

instance : Std.LawfulEqOrd Edge where
  eq_of_compare {a b} h := by
    have h : (compare a.octet b.octet).then (compare a.target b.target) = .eq := h
    rw [Ordering.then_eq_eq] at h
    obtain ⟨octet, target⟩ := a
    simp_all

end Edge

/-- The edges that leave a state. -/
structure State where
  transitions : Std.ExtTreeSet Edge
  epsilon : StateSet
deriving DecidableEq

namespace State

def isolated : State := ⟨∅, ∅⟩

/-- The states that an octet leads to, in ascending order. -/
def next (state : State) (octet : Octet) : List StateId :=
  (state.transitions.toList.filter (·.octet == octet)).map Edge.target

/-- The states that an edge of either kind leads to, with repetitions. -/
def successors (state : State) : List StateId :=
  state.transitions.toList.map Edge.target ++ state.epsilon.toList

end State

structure Nfa where
  states : Array State
  entry : StateId
  accepting : StateSet
deriving DecidableEq

namespace Nfa

def state? (nfa : Nfa) (id : StateId) : Option State := nfa.states[id]?

def size (nfa : Nfa) : Nat := nfa.states.size

def isAccepting (nfa : Nfa) (id : StateId) : Bool := nfa.accepting.contains id

/-- The states that an edge from a state leads to. No edge leaves a state that there is not. -/
def successors (nfa : Nfa) (id : StateId) : List StateId :=
  match nfa.state? id with
  | some state => state.successors
  | none => []

end Nfa

end AugmentedBnf
