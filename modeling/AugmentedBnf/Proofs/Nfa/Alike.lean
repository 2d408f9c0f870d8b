import AugmentedBnf.Proofs.Nfa.Thompson

/-!
# Patterns with alike automata

How many states the automaton of a pattern has can be told from the pattern, as its traces can. Two
patterns that agree on these, and on the loops that they leave at their exits, may stand for each
other in any pattern. So may branches in another order.

* `Nfa.size_ofPattern?`: the number of states.
* `Pattern.Alike.repeated` and the like: patterns of alike parts are alike.
* `Pattern.Alike.union_left_comm`: branches may change places.
-/

namespace AugmentedBnf

open Computability

namespace Pattern

/-- The number of states that are allocated between the entry and the exit of a pattern. A loop that
is gone through once before is connected twice. -/
def innerStates : Pattern → Nat
  | skip | oneOf _ => 0
  | seq first second => first.innerStates + second.innerStates + 1
  | union first second => first.innerStates + second.innerStates
  | star body => body.innerStates
  | plus body => body.innerStates + body.innerStates

lemma size_connect {pattern : Pattern} {entry exit : StateId} {builder builder' : Builder}
    (h : pattern.connect entry exit builder = some builder') :
    builder'.size = builder.size + pattern.innerStates := by
  induction pattern generalizing entry exit builder builder' with
  | skip => exact Builder.size_addEpsilon? h
  | oneOf octets => exact (Builder.joins_foldlM_addTransition? h).1
  | seq first second ihf ihs =>
    obtain ⟨next, hfirst, hsecond⟩ := connect_seq.mp h
    rw [ihs hsecond, ihf hfirst, Builder.size_addState, innerStates]
    omega
  | union first second ihf ihs =>
    obtain ⟨next, hfirst, hsecond⟩ := connect_union.mp h
    rw [ihs hsecond, ihf hfirst, innerStates, Nat.add_assoc]
  | star body ih =>
    obtain ⟨next, hskip, hloop⟩ := connect_star.mp h
    rw [ih hloop, Builder.size_addEpsilon? hskip, innerStates]
  | plus body ih =>
    obtain ⟨next, honce, hloop⟩ := connect_plus.mp h
    rw [ih hloop, ih honce, innerStates, Nat.add_assoc]

end Pattern

/-- Besides its entry and its exit, the automaton of a pattern has the states between them. -/
lemma Nfa.size_ofPattern? {pattern : Pattern} {nfa : Nfa}
    (h : Nfa.ofPattern? pattern = some nfa) : nfa.size = 2 + pattern.innerStates := by
  obtain ⟨builder, hconnect, rfl⟩ := ofPattern?_eq_some h
  have hsize := Pattern.size_connect hconnect
  simpa [Nfa.size, Builder.finish, Builder.size, Builder.addState, Builder.empty] using hsize

namespace Pattern

/-! ### Alike patterns -/

/-- The automata of two patterns are as large as each other and accept the same words, wherever the
patterns stand. -/
structure Alike (pattern pattern' : Pattern) : Prop where
  traces : pattern.traces = pattern'.traces
  loops : pattern.loops = pattern'.loops
  innerStates : pattern.innerStates = pattern'.innerStates

namespace Alike

variable {a a' b b' c : Pattern}

lemma refl (a : Pattern) : a.Alike a := ⟨rfl, rfl, rfl⟩

lemma trans (hab : a.Alike b) (hbc : b.Alike c) : a.Alike c :=
  ⟨hab.traces.trans hbc.traces, hab.loops.trans hbc.loops, hab.innerStates.trans hbc.innerStates⟩

lemma seq (ha : a.Alike a') (hb : b.Alike b') : (a.seq b).Alike (a'.seq b') where
  traces := by rw [Pattern.traces, Pattern.traces, ha.traces, hb.traces]
  loops := by rw [Pattern.loops, Pattern.loops, hb.loops]
  innerStates := by
    rw [Pattern.innerStates, Pattern.innerStates, ha.innerStates, hb.innerStates]

lemma union (ha : a.Alike a') (hb : b.Alike b') : (a.union b).Alike (a'.union b') where
  traces := by rw [Pattern.traces, Pattern.traces, ha.traces, hb.traces, ha.loops, hb.loops]
  loops := by rw [Pattern.loops, Pattern.loops, ha.loops, hb.loops]
  innerStates := by
    rw [Pattern.innerStates, Pattern.innerStates, ha.innerStates, hb.innerStates]

lemma star (ha : a.Alike a') : a.star.Alike a'.star where
  traces := by rw [Pattern.traces, Pattern.traces, ha.traces, ha.loops]
  loops := by rw [Pattern.loops, Pattern.loops, ha.traces, ha.loops]
  innerStates := by rw [Pattern.innerStates, Pattern.innerStates, ha.innerStates]

lemma plus (ha : a.Alike a') : a.plus.Alike a'.plus where
  traces := by rw [Pattern.traces, Pattern.traces, ha.traces, ha.loops]
  loops := by rw [Pattern.loops, Pattern.loops, ha.traces, ha.loops]
  innerStates := by rw [Pattern.innerStates, Pattern.innerStates, ha.innerStates]

lemma copies (ha : a.Alike a') (hb : b.Alike b') (count : Nat) :
    (Pattern.copies count a b).Alike (Pattern.copies count a' b') := by
  induction count with
  | zero => exact hb
  | succ count ih => exact ha.seq ih

lemma atMost (ha : a.Alike a') (count : Nat) :
    (Pattern.atMost count a).Alike (Pattern.atMost count a') := by
  unfold Pattern.atMost
  induction count - 1 with
  | zero => exact (refl skip).union ha
  | succ count ih => exact (refl skip).union (ha.seq ih)

/-- Repetitions of alike patterns between the same bounds are alike. -/
lemma repeated (ha : a.Alike a') (min : Nat) (max : Option Nat) :
    (a.repeated min max).Alike (a'.repeated min max) := by
  cases max with
  | none =>
    simp only [Pattern.repeated, atLeast]
    split_ifs
    · exact ha.star
    · exact ha.copies ha.plus _
  | some max =>
    simp only [Pattern.repeated]
    split_ifs
    · exact ha.atMost max
    · exact ha.copies ha _
    · exact ha.copies (ha.atMost _) min

lemma union_comm (a b : Pattern) : (a.union b).Alike (b.union a) where
  traces := by
    rw [Pattern.traces, Pattern.traces, add_comm a.traces, add_comm a.loops]
  loops := add_comm _ _
  innerStates := Nat.add_comm _ _

/-- Branches between the same entry and exit share their loops, however they are put together. -/
lemma traces_union_union (a b c : Pattern) :
    (a.union (b.union c)).traces =
      (a.traces + (b.traces + c.traces)) * (a.loops + (b.loops + c.loops))∗ := by
  have hle : b.loops + c.loops ≤ a.loops + (b.loops + c.loops) := le_add_self
  -- The loops of all branches take up those of two of them.
  have hinner : (b.loops + c.loops)∗ * (a.loops + (b.loops + c.loops))∗ =
      (a.loops + (b.loops + c.loops))∗ := by
    refine le_antisymm ?_ (le_mul_of_one_le_left' one_le_kstar)
    calc (b.loops + c.loops)∗ * (a.loops + (b.loops + c.loops))∗
        ≤ (a.loops + (b.loops + c.loops))∗ * (a.loops + (b.loops + c.loops))∗ := by
          gcongr
      _ = (a.loops + (b.loops + c.loops))∗ := kstar_mul_kstar _
  calc (a.union (b.union c)).traces
      = (a.traces + (b.traces + c.traces) * (b.loops + c.loops)∗) *
          (a.loops + (b.loops + c.loops))∗ := rfl
    _ = (a.traces + (b.traces + c.traces)) * (a.loops + (b.loops + c.loops))∗ := by
      rw [add_mul, mul_assoc, hinner, ← add_mul]

/-- A branch may stand behind the one next to it. -/
lemma union_left_comm (a b c : Pattern) :
    (a.union (b.union c)).Alike (b.union (a.union c)) where
  traces := by
    rw [traces_union_union, traces_union_union, add_left_comm a.traces, add_left_comm a.loops]
  loops := add_left_comm _ _ _
  innerStates := Nat.add_left_comm _ _ _

end Alike

end Pattern

end AugmentedBnf
