import AugmentedBnf.Expansion
import AugmentedBnf.Nfa.Thompson

/-!
# Compilation

The automaton of a rule is the automaton of the pattern that its name stands for.
-/

namespace AugmentedBnf

/-- Why a rule has no automaton. -/
inductive CompileError where
  /-- Its name stands for no pattern. -/
  | expansion (error : ExpansionError)
  /-- Its pattern leaves a state that is not allocated, which does not happen. -/
  | unallocated
deriving DecidableEq, Repr

def CompileError.message : CompileError → String
  | expansion error => error.message
  | unallocated => "edge from a state that is not allocated"

/-- The automaton of a rule among regular rules. -/
def RegularRules.compile (regular : RegularRules) (options : Options) (root : String) :
    Except CompileError Nfa :=
  match regular.expand options root with
  | .error error => .error (.expansion error)
  | .ok pattern =>
    match Nfa.ofPattern? pattern with
    | some nfa => .ok nfa
    | none => .error .unallocated

end AugmentedBnf
