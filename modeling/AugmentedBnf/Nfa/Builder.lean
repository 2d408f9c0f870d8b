import AugmentedBnf.Nfa.Basic

/-!
# Building automata

States are allocated one by one, and edges are added from states that are allocated. Where an edge
leads to is not looked at, so that it may be allocated later.
-/

namespace AugmentedBnf

/-- The states allocated so far and the edges between them. -/
structure Builder where
  states : Array State
deriving DecidableEq

namespace Builder

def empty : Builder := ⟨#[]⟩

def size (builder : Builder) : Nat := builder.states.size

def addState (builder : Builder) : StateId × Builder :=
  (builder.states.size, ⟨builder.states.push .isolated⟩)

/-- A change of the edges of a state, if it is allocated. -/
def modify? (builder : Builder) (id : StateId) (change : State → State) : Option Builder :=
  if id < builder.states.size then some ⟨builder.states.modify id change⟩ else none

/-- An edge that reads an octet, if the state it leaves is allocated. -/
def addTransition? (builder : Builder) (source : StateId) (octet : Octet) (target : StateId) :
    Option Builder :=
  builder.modify? source fun state =>
    { state with transitions := state.transitions.insert ⟨octet, target⟩ }

/-- An edge that reads nothing, if the state it leaves is allocated. -/
def addEpsilon? (builder : Builder) (source target : StateId) : Option Builder :=
  builder.modify? source fun state => { state with epsilon := state.epsilon.insert target }

/-- The automaton of the states and edges, with an entry and accepting states. -/
def finish (builder : Builder) (entry : StateId) (accepting : List StateId) : Nfa :=
  ⟨builder.states, entry, .ofList accepting⟩

end Builder

end AugmentedBnf
