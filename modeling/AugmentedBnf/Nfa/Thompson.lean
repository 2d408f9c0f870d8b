import AugmentedBnf.Nfa.Builder
import AugmentedBnf.Pattern

/-!
# Automata of patterns

Thompson's construction. A pattern becomes edges between two states that are given to it, an entry
and an exit, and the states between its parts are allocated when they are come to. Branches share
both states, and a loop stays at the exit.
-/

namespace AugmentedBnf

namespace Pattern

/-- Add the edges of a pattern between two states. There is nothing to add them to if a state is not
allocated. -/
def connect : Pattern → (entry exit : StateId) → Builder → Option Builder
  | skip, entry, exit, builder => builder.addEpsilon? entry exit
  | oneOf octets, entry, exit, builder =>
    octets.foldlM (fun builder octet => builder.addTransition? entry octet exit) builder
  | seq first second, entry, exit, builder => do
    let (middle, builder) := builder.addState
    let builder ← connect first entry middle builder
    connect second middle exit builder
  | union first second, entry, exit, builder => do
    let builder ← connect first entry exit builder
    connect second entry exit builder
  | star body, entry, exit, builder => do
    let builder ← builder.addEpsilon? entry exit
    connect body exit exit builder
  | plus body, entry, exit, builder => do
    let builder ← connect body entry exit builder
    connect body exit exit builder

end Pattern

/-- The automaton of a pattern. Its entry is the state allocated first, and the one allocated next
is the only one that accepts. -/
def Nfa.ofPattern? (pattern : Pattern) : Option Nfa := do
  let (entry, builder) := Builder.empty.addState
  let (exit, builder) := builder.addState
  let builder ← pattern.connect entry exit builder
  return builder.finish entry [exit]

end AugmentedBnf
