import AugmentedBnf.Nfa.Basic

/-!
# Reachable states

The states that words lead to from the entry of an automaton, found by following edges from states
seen for the first time.
-/

namespace AugmentedBnf

namespace Nfa

def edgeCount (nfa : Nfa) : Nat :=
  nfa.states.foldl (fun count state => count + state.successors.length) 0

/-- The states seen, with those that edges lead to from the waiting ones. The first argument bounds
the states taken from the waiting ones. -/
def explore (nfa : Nfa) : Nat → List StateId → StateSet → StateSet
  | 0, _, seen => seen
  | _, [], seen => seen
  | turns + 1, id :: waiting, seen =>
    if id ∈ seen then explore nfa turns waiting seen
    else explore nfa turns (nfa.successors id ++ waiting) (seen.insert id)

/-- The states that edges lead to from the entry, and the entry itself. Besides it, a state waits
once for every edge that leads to it at most. -/
def reachable (nfa : Nfa) : StateSet := nfa.explore (nfa.edgeCount + 1) [nfa.entry] ∅

end Nfa

end AugmentedBnf
