import AugmentedBnf.Proofs.Nfa.Thompson

/-!
# Loops at shared exits

A loop is left at the exit of a pattern, where another branch, or an edge that skips the pattern,
may come to it, too. Where no such exit is shared, the traces of a pattern are its words.

The loops of copies are no obstacle: what is walked at the exit of one copy might as well have been
walked inside of it. Copies that may be left out need one before them that must not.

* `Pattern.isExact_repeated`: repetitions of a pattern whose traces are its words.
* `Pattern.loops_repeated`: a repetition with a maximum leaves the loops of its pattern.
-/

namespace AugmentedBnf

open Computability

namespace Pattern

variable {body first second last : Pattern} {count : Nat}

/-- The automaton of a pattern accepts the words of the pattern and no others. -/
def IsExact (pattern : Pattern) : Prop := pattern.traces = pattern.language

/-- A word may be prolonged by loops if the traces are the words. -/
lemma language_mul_kstar_loops (h : body.IsExact) :
    body.language * body.loops∗ = body.language := by
  rw [← h, traces_mul_kstar_loops]

lemma isExact_skip : skip.IsExact := rfl

lemma isExact_oneOf (octets : List Octet) : (oneOf octets).IsExact := rfl

lemma isExact_seq (hfirst : first.IsExact) (hsecond : second.IsExact) :
    (first.seq second).IsExact := by
  rw [IsExact, traces, language, hfirst, hsecond]

/-- Branches without loops do not get into each other's way. -/
lemma isExact_union (hfirst : first.IsExact) (hsecond : second.IsExact)
    (hloops : (first.union second).loops = 0) : (first.union second).IsExact := by
  rw [loops] at hloops
  rw [IsExact, traces, language, hloops, hfirst, hsecond, kstar_zero, mul_one]

lemma isExact_star (hbody : body.IsExact) (hloops : body.loops = 0) : body.star.IsExact := by
  rw [IsExact, traces, language, hloops, add_zero, hbody]

/-- The loops of the body may be walked between two rounds of it, as at the end of each round. -/
lemma isExact_plus (hbody : body.IsExact) : body.plus.IsExact := by
  have hround : body.language * body.loops ≤ body.language := by
    have hle := body.traces_mul_loops_le
    rwa [hbody] at hle
  rw [IsExact, traces, language, hbody]
  apply le_antisymm
  · refine mul_kstar_le (le_mul_of_one_le_right' one_le_kstar) ?_
    rw [mul_add, add_le_iff]
    constructor
    · rw [mul_assoc]
      gcongr
      exact kstar_mul_le_kstar
    · rw [← Language.mul_self_kstar_comm, mul_assoc]
      gcongr
  · gcongr
    exact le_self_add

lemma loops_classes (octetss : List (List Octet)) : (classes octetss).loops = 0 := by
  induction octetss with
  | nil => rfl
  | cons octets rest ih =>
    cases rest with
    | nil => rfl
    | cons next rest => exact ih

lemma isExact_classes (octetss : List (List Octet)) : (classes octetss).IsExact := by
  induction octetss with
  | nil => exact isExact_skip
  | cons octets rest ih =>
    cases rest with
    | nil => exact isExact_oneOf octets
    | cons next rest => exact isExact_seq (isExact_oneOf octets) ih

/-! ### Copies -/

lemma loops_copies (count : Nat) (body last : Pattern) :
    (copies count body last).loops = last.loops := by
  induction count with
  | zero => rfl
  | succ count ih => exact ih

lemma traces_copies (count : Nat) (body last : Pattern) :
    (copies count body last).traces = body.traces ^ count * last.traces := by
  induction count with
  | zero => simp [copies, Nat.repeat]
  | succ count ih =>
    change body.traces * (copies count body last).traces = _
    rw [ih, pow_succ', mul_assoc]

lemma isExact_copies (hbody : body.IsExact) (hlast : last.IsExact) :
    (copies count body last).IsExact := by
  rw [IsExact, traces_copies, language_copies, hbody, hlast]

/-- One copy more than a number of them at most. -/
def optional (count : Nat) (body : Pattern) : Pattern :=
  Nat.repeat (fun rest => union skip (seq body rest)) count (union skip body)

lemma atMost_eq_optional (count : Nat) (body : Pattern) :
    atMost count body = optional (count - 1) body := rfl

lemma loops_optional (count : Nat) (body : Pattern) : (optional count body).loops = body.loops := by
  induction count with
  | zero => exact zero_add _
  | succ count ih => exact (zero_add _).trans ih

lemma isExact_optional (hbody : body.IsExact) (hloops : body.loops = 0) (count : Nat) :
    (optional count body).IsExact := by
  -- Skipping needs an exit without loops, at each of the copies.
  have hnone := fun count => (loops_optional count body).trans hloops
  induction count with
  | zero => exact isExact_union isExact_skip hbody (hnone 0)
  | succ count ih => exact isExact_union isExact_skip (isExact_seq hbody ih) (hnone (count + 1))

/-- Behind a copy that must not be left out, the loops that copies leave at their common exit spell
nothing that the copies do not. -/
lemma language_mul_traces_optional (hbody : body.IsExact) (count : Nat) :
    body.language * (optional count body).traces =
      body.language * (optional count body).language := by
  induction count with
  | zero =>
    calc body.language * ((1 + body.traces) * (0 + body.loops)∗)
        = body.language * body.loops∗ + body.language * (body.language * body.loops∗) := by
          rw [zero_add, hbody, add_mul, one_mul, mul_add]
      _ = body.language * (1 + body.language) := by
          rw [language_mul_kstar_loops hbody, mul_add, mul_one]
  | succ count ih =>
    -- Behind the first copy the loops are those of the body, wherever the other copies stop.
    set rest := optional count body
    have hloops : rest.loops = body.loops := loops_optional count body
    calc body.language * ((1 + body.traces * rest.traces) * (0 + rest.loops)∗)
        = body.language * body.loops∗ +
            body.language * (body.language * (rest.traces * rest.loops∗)) := by
          rw [zero_add, hbody, add_mul, one_mul, mul_add, hloops]
          simp only [mul_assoc]
      _ = body.language + body.language * (body.language * rest.language) := by
          rw [language_mul_kstar_loops hbody, traces_mul_kstar_loops, ih]
      _ = body.language * (1 + body.language * rest.language) := by
          rw [mul_add, mul_one]

/-- A repetition with a maximum leaves the loops of its last copy. -/
lemma loops_repeated (min max : Nat) (body : Pattern) :
    (repeated min (some max) body).loops = body.loops := by
  unfold repeated
  dsimp only
  split_ifs
  · rw [atMost_eq_optional, loops_optional]
  · rw [exactly, loops_copies]
  · rw [loops_copies, atMost_eq_optional, loops_optional]

/-- A repetition is exact if what it repeats is, and if that leaves no loops in case it may be left
out. -/
lemma isExact_repeated {min : Nat} {max? : Option Nat} (hbody : body.IsExact)
    (hloops : min = 0 → body.loops = 0) : (repeated min max? body).IsExact := by
  cases max? with
  | none =>
    unfold Pattern.repeated atLeast
    dsimp only
    split_ifs with hmin
    · exact isExact_star hbody (hloops hmin)
    · exact isExact_copies hbody (isExact_plus hbody)
  | some max =>
    unfold Pattern.repeated
    dsimp only
    split_ifs with hmin heq
    · rw [atMost_eq_optional]
      exact isExact_optional hbody (hloops hmin) (max - 1)
    · exact isExact_copies hbody hbody
    · obtain ⟨more, rfl⟩ := Nat.exists_eq_succ_of_ne_zero hmin
      rw [IsExact, traces_copies, language_copies, hbody, pow_succ, mul_assoc, mul_assoc,
        atMost_eq_optional, language_mul_traces_optional hbody]

end Pattern

end AugmentedBnf
