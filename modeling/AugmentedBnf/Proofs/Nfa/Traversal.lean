import Mathlib.Data.List.Perm.Subperm
import AugmentedBnf.Proofs.Nfa.Reachable

/-!
# Traversals of an automaton

A turn takes some state that waits. Whichever it takes, and whether or not it lets states wait again
that are seen already, fewer states and edges are left behind it. So no traversal goes on for ever,
and each of them ends with the same states.

* `Nfa.Turn.explores`, `Nfa.Turn.left_lt`: what a turn keeps, and what becomes less by it.
* `Nfa.Turns.explores`, `Nfa.Turns.count_add_left_le`: the same for any number of turns.
* `Nfa.traversals_find_reachable`: how a traversal ends, and after how many turns.
-/

namespace AugmentedBnf

/-- How far a traversal is: the states that wait, and those seen. -/
structure Progress where
  waiting : List StateId
  seen : StateSet

namespace Nfa

variable {nfa : Nfa} {before after last : Progress} {count : Nat}

def start (nfa : Nfa) : Progress := ⟨[nfa.entry], ∅⟩

/-- A turn takes any of the states that wait. One that is seen already is dropped. Otherwise the
states that its edges lead to wait now, in any order, and those seen may be left out. -/
inductive Turn (nfa : Nfa) : Progress → Progress → Prop where
  | skip {id waiting rest seen} (hwaiting : waiting.Perm (id :: rest)) (hid : id ∈ seen) :
      Turn nfa ⟨waiting, seen⟩ ⟨rest, seen⟩
  | visit {id waiting rest next seen} (hwaiting : waiting.Perm (id :: rest)) (hid : id ∉ seen)
      (hnext : next.Subperm (nfa.successors id))
      (hall : ∀ other ∈ nfa.successors id, other ∈ next ∨ other ∈ seen.insert id) :
      Turn nfa ⟨waiting, seen⟩ ⟨next ++ rest, seen.insert id⟩

inductive Turns (nfa : Nfa) : Nat → Progress → Progress → Prop where
  | none (progress) : Turns nfa 0 progress progress
  | cons {count first second last} (hturn : nfa.Turn first second)
      (hothers : Turns nfa count second last) : Turns nfa (count + 1) first last

/-- The turn that takes the state that waits last, where a stack has its top first. Its edges are
gone through in their order, and none of the states seen waits again. -/
def pop (nfa : Nfa) : Progress → Progress
  | ⟨[], seen⟩ => ⟨[], seen⟩
  | ⟨id :: waiting, seen⟩ =>
    if id ∈ seen then ⟨waiting, seen⟩
    else ⟨((nfa.successors id).filter (· ∉ seen.insert id)).reverse ++ waiting, seen.insert id⟩

lemma turn_pop (h : before.waiting ≠ []) : nfa.Turn before (nfa.pop before) := by
  obtain ⟨_ | ⟨id, waiting⟩, seen⟩ := before
  · exact absurd rfl h
  rw [pop]
  split_ifs with hid
  · exact .skip (.refl _) hid
  · refine .visit (.refl _) hid ?_ fun other hother => ?_
    · exact (List.reverse_perm _).subperm.trans List.filter_sublist.subperm
    · by_cases hseen : other ∈ seen.insert id
      · exact .inr hseen
      · exact .inl (by simpa only [List.mem_reverse, List.mem_filter, decide_eq_true_eq] using
          ⟨hother, hseen⟩)

lemma Turn.explores (hturn : nfa.Turn before after) (h : nfa.Explores before.waiting before.seen) :
    nfa.Explores after.waiting after.seen := by
  -- The order in which states wait does not matter to `Explores`.
  have hperm : ∀ {id waiting rest seen}, waiting.Perm (id :: rest) → nfa.Explores waiting seen →
      nfa.Explores (id :: rest) seen := fun hwaiting h =>
    h.restrict hwaiting.symm.subset fun _ hid => .inl (hwaiting.subset hid)
  cases hturn with
  | skip hwaiting hid => exact (hperm hwaiting h).skip hid
  | visit hwaiting _ hnext hall =>
    refine (hperm hwaiting h).visit.restrict ?_ fun other hother => ?_
    · exact List.append_subset.mpr ⟨List.subset_append_of_subset_left _ hnext.subset,
        List.subset_append_right _ _⟩
    · obtain hother | hother := List.mem_append.mp hother
      · exact (hall other hother).imp_left (List.mem_append_left _)
      · exact .inl (List.mem_append_right _ hother)

/-- The states that wait, and the edges of those not seen. -/
def left (nfa : Nfa) (progress : Progress) : Nat :=
  progress.waiting.length + nfa.unexplored progress.seen

lemma left_start (nfa : Nfa) : nfa.left nfa.start = nfa.edgeCount + 1 := by
  rw [left, start, List.length_singleton, unexplored_empty, Nat.add_comm]

lemma Turn.left_lt (hturn : nfa.Turn before after) : nfa.left after < nfa.left before := by
  cases hturn with
  | skip hwaiting =>
    simp only [left, hwaiting.length_eq, List.length_cons]
    omega
  | visit hwaiting hid hnext =>
    -- The edges of the state visited are paid for by what is no longer unexplored.
    have hedges := nfa.unexplored_insert hid
    have hlength := hnext.length_le
    simp only [left, hwaiting.length_eq, List.length_cons, List.length_append]
    omega

lemma Turns.explores (hturns : nfa.Turns count before after)
    (h : nfa.Explores before.waiting before.seen) : nfa.Explores after.waiting after.seen := by
  induction hturns with
  | none => exact h
  | cons hturn _ ih => exact ih (hturn.explores h)

lemma Turns.count_add_left_le (hturns : nfa.Turns count before after) :
    count + nfa.left after ≤ nfa.left before := by
  induction hturns with
  | none => exact Nat.zero_add _ ▸ Nat.le_refl _
  | cons hturn _ ih =>
    have hless := hturn.left_lt
    omega

/-- Any traversal from the entry can only end with the states that the entry leads to. -/
lemma Turns.seen_eq_reachable (hturns : nfa.Turns count nfa.start last)
    (hlast : last.waiting = []) : last.seen = nfa.reachable := by
  have hexplores := hturns.explores (.start nfa)
  rw [hlast] at hexplores
  exact Std.ExtTreeSet.ext_mem fun id => by rw [hexplores.mem_iff, mem_reachable]

/-- The stack becomes empty, as something becomes less with every turn before that. -/
lemma exists_turns_pop (before : Progress) :
    ∃ count, nfa.Turns count before (nfa.pop^[count] before) ∧
      (nfa.pop^[count] before).waiting = [] := by
  induction hleft : nfa.left before using Nat.strong_induction_on generalizing before with
  | _ size ih =>
    by_cases hwaiting : before.waiting = []
    · exact ⟨0, .none before, hwaiting⟩
    · have hturn := nfa.turn_pop hwaiting
      obtain ⟨count, hturns, hend⟩ := ih _ (hleft ▸ hturn.left_lt) (nfa.pop before) rfl
      exact ⟨count + 1, .cons hturn hturns, hend⟩

/-- The states found are those that the entry leads to, and no edge leaves one that is not
allocated. They are found by taking states from a stack until it is empty. Whichever states are taken
instead, a traversal has at most one turn more than the automaton has edges. It can go on as long as
states wait, and when none does it has found the same ones. -/
theorem traversals_find_reachable (nfa : Nfa) :
    (∀ id, id ∈ nfa.reachable ↔ Reaches nfa.states nfa.entry id) ∧
    (∀ id, nfa.size ≤ id → nfa.successors id = []) ∧
    (∃ count ≤ nfa.edgeCount + 1, nfa.pop^[count] nfa.start = ⟨[], nfa.reachable⟩) ∧
    ∀ count progress, nfa.Turns count nfa.start progress →
      count ≤ nfa.edgeCount + 1 ∧
      (progress.waiting ≠ [] → nfa.Turn progress (nfa.pop progress)) ∧
      (progress.waiting = [] → progress.seen = nfa.reachable) := by
  have hcount : ∀ {count progress}, nfa.Turns count nfa.start progress →
      count ≤ nfa.edgeCount + 1 := by
    intro count progress hturns
    have hle := hturns.count_add_left_le
    rw [left_start] at hle
    omega
  refine ⟨fun id => mem_reachable, fun id => successors_of_size_le, ?_, fun count progress h => ?_⟩
  · obtain ⟨count, hturns, hend⟩ := nfa.exists_turns_pop nfa.start
    refine ⟨count, hcount hturns, ?_⟩
    rw [← hturns.seen_eq_reachable hend, ← hend]
  · exact ⟨hcount h, nfa.turn_pop, h.seen_eq_reachable⟩

/-- Two states lead to each other, and one of them also to a state that is not allocated. -/
example :
    let states : Array State :=
      #[⟨.ofList [Edge.mk 0x61 1], .ofList [7]⟩, ⟨∅, .ofList [0]⟩, .isolated]
    (Nfa.mk states 0 ∅).reachable.toList = [0, 1, 7] := by decide +kernel

end Nfa

end AugmentedBnf
