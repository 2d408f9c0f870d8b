import Mathlib.Algebra.BigOperators.Group.List.Basic
import Mathlib.Tactic.Ring
import AugmentedBnf.Proofs.Expansion.Basic
import AugmentedBnf.Proofs.Nfa.Alike

/-!
# The size of expansions

How many states are allocated between the entry and the exit of a body can be counted on the body
itself, if the counts for the names in it are known. Repetitions multiply these numbers and add one
state between every two copies.

* `Repeat.states`, `Alternation.states`: the counts.
* `Concatenation.states_eq_sum`, `Alternation.states_eq_sum`: the counts of sequences.
* `Alternation.innerStates_expand`: the pattern of a body needs as many states as are counted.
-/

namespace AugmentedBnf

/-- The states of a numeric value. A range is one edge, or several between the same states. -/
def Numeric.states (value : Numeric) (mode : RangeMode) : Nat :=
  match value.ranged, mode, value.values with
  | true, .inclusive, [_, _] => 0
  | _, _, values => values.length - 1

/-- The states of a repetition of something with a number of states. Without a maximum, the copies
that are asked for are followed by one more for the loop. A maximum of zero still allows for one
copy if there is a `*`. -/
def Repeat.states (bounds : Repeat) (mode : CountMode) (copy : Nat) : Nat :=
  let min := bounds.min.toNat
  match (bounds.maximum mode).map UInt32.toNat with
  | none => if min = 0 then copy else (min - 1) + (min + 1) * copy
  | some 0 => if bounds.starred then copy else 0
  | some max => (max - 1) + max * copy

section

variable (options : Options) (counts : String → Nat)

mutual

/-- The states of an element, where a function tells those of names. -/
def Element.states : Element → Nat
  | .reference name => counts name
  | .group body | .option body => Alternation.states body
  | .literal octets | .prose octets => octets.length - 1
  | .numeric value => value.states options.rangeMode

def Repetition.states : Repetition → Nat
  | ⟨none, element⟩ => Element.states element
  | ⟨some bounds, element⟩ => bounds.states options.countMode (Element.states element)

/-- The states of a concatenation, with one between every two repetitions. -/
def Concatenation.states : Concatenation → Nat
  | [] => 0
  | [repetition] => Repetition.states repetition
  | repetition :: rest => Repetition.states repetition + Concatenation.states rest + 1

/-- The states of an alternation, whose branches share no states but their ends. -/
def Alternation.states : Alternation → Nat
  | [] => 0
  | branch :: rest => Concatenation.states branch + Alternation.states rest

end

end

section

variable {options : Options} {counts counts' : String → Nat}

lemma Concatenation.states_eq_sum (branch : Concatenation) :
    Concatenation.states options counts branch =
      (branch.length - 1) + (branch.map (Repetition.states options counts)).sum := by
  induction branch with
  | nil => rfl
  | cons repetition rest ih =>
    cases rest with
    | nil => simp [Concatenation.states]
    | cons next rest =>
      simp only [Concatenation.states, ih, List.map_cons, List.sum_cons, List.length_cons,
        Nat.add_sub_cancel]
      ring

lemma Alternation.states_eq_sum (body : Alternation) :
    Alternation.states options counts body =
      (body.map (Concatenation.states options counts)).sum := by
  induction body with
  | nil => rfl
  | cons branch rest ih => rw [Alternation.states, ih, List.map_cons, List.sum_cons]

mutual

lemma Element.states_congr : ∀ element : Element,
    (∀ name ∈ element.references, counts name = counts' name) →
      element.states options counts = element.states options counts'
  | .reference name, h => h name List.mem_cons_self
  | .group body, h | .option body, h => Alternation.states_congr body h
  | .literal _, _ | .prose _, _ | .numeric _, _ => rfl

lemma Repetition.states_congr : ∀ repetition : Repetition,
    (∀ name ∈ repetition.references, counts name = counts' name) →
      repetition.states options counts = repetition.states options counts'
  | ⟨none, element⟩, h => Element.states_congr element h
  | ⟨some bounds, element⟩, h => by
    rw [Repetition.states, Repetition.states, Element.states_congr element h]

lemma Concatenation.states_congr : ∀ branch : Concatenation,
    (∀ name ∈ Concatenation.references branch, counts name = counts' name) →
      Concatenation.states options counts branch = Concatenation.states options counts' branch
  | [], _ => rfl
  | [repetition], h => Repetition.states_congr repetition fun name hname =>
    h name (List.mem_append_left _ hname)
  | repetition :: next :: rest, h => by
    obtain ⟨hfirst, hrest⟩ := List.forall_mem_append.mp h
    simp only [Concatenation.states, Repetition.states_congr repetition hfirst,
      Concatenation.states_congr (next :: rest) hrest]

/-- The states of a body depend on the counts for the names it refers to only. -/
lemma Alternation.states_congr : ∀ body : Alternation,
    (∀ name ∈ Alternation.references body, counts name = counts' name) →
      Alternation.states options counts body = Alternation.states options counts' body
  | [], _ => rfl
  | branch :: rest, h => by
    obtain ⟨hfirst, hrest⟩ := List.forall_mem_append.mp h
    rw [Alternation.states, Alternation.states, Concatenation.states_congr branch hfirst,
      Alternation.states_congr rest hrest]

end

end

/-! ### Patterns -/

namespace Pattern

lemma innerStates_classes (octetss : List (List Octet)) :
    (classes octetss).innerStates = octetss.length - 1 := by
  induction octetss with
  | nil => rfl
  | cons octets rest ih =>
    cases rest with
    | nil => rfl
    | cons next rest =>
      change 0 + (classes (next :: rest)).innerStates + 1 = _
      rw [ih, Nat.zero_add]
      rfl

lemma innerStates_copies (count : Nat) (body last : Pattern) :
    (copies count body last).innerStates = count + count * body.innerStates + last.innerStates := by
  induction count with
  | zero => simp [copies, Nat.repeat]
  | succ count ih =>
    change body.innerStates + (copies count body last).innerStates + 1 = _
    rw [ih]
    ring

/-- One copy is allowed even if no copy is. -/
lemma innerStates_atMost (count : Nat) (body : Pattern) :
    (atMost count body).innerStates = (count - 1) + (count - 1 + 1) * body.innerStates := by
  unfold atMost
  induction count - 1 with
  | zero => simp [Nat.repeat, innerStates]
  | succ count ih =>
    rw [Nat.repeat, innerStates, innerStates, innerStates, ih]
    ring

/-- Between bounds there is a state behind every copy but the last one. -/
lemma innerStates_repeated_some {min max : Nat} (hle : min ≤ max) (body : Pattern) :
    (body.repeated min (some max)).innerStates =
      (max - 1) + (max - 1 + 1) * body.innerStates := by
  simp only [repeated]
  split_ifs with hmin heq
  · exact innerStates_atMost max body
  · rw [exactly, innerStates_copies]
    ring
  · obtain ⟨more, rfl⟩ := Nat.exists_eq_add_of_lt (lt_of_le_of_ne hle heq)
    rw [innerStates_copies, innerStates_atMost, show min + more + 1 - min - 1 = more by omega,
      Nat.add_sub_cancel]
    ring

/-- Without a maximum, one more copy is there for the loop. -/
lemma innerStates_repeated_none (min : Nat) (body : Pattern) :
    (body.repeated min none).innerStates =
      if min = 0 then body.innerStates else (min - 1) + (min + 1) * body.innerStates := by
  rw [repeated, atLeast]
  split_ifs with hmin
  · rfl
  · obtain ⟨min, rfl⟩ := Nat.exists_eq_succ_of_ne_zero hmin
    rw [innerStates_copies, innerStates, Nat.succ_sub_one, Nat.succ_eq_add_one]
    ring

end Pattern

lemma Numeric.innerStates_pattern (value : Numeric) (mode : RangeMode) :
    (value.pattern mode).innerStates = value.states mode := by
  have hword : ∀ values : List UInt32,
      (Pattern.word (values.map UInt32.toUInt8)).innerStates = values.length - 1 := by
    intro values
    rw [Pattern.word, Pattern.innerStates_classes, List.length_map, List.length_map]
  obtain ⟨radix, ranged, values⟩ := value
  cases ranged with
  | false => exact hword values
  | true =>
    cases mode with
    | sequence => exact hword values
    | inclusive =>
      rcases values with _ | ⟨lower, _ | ⟨upper, _ | ⟨next, rest⟩⟩⟩
      · exact hword []
      · exact hword [lower]
      · rfl
      · exact hword (lower :: upper :: next :: rest)

lemma Repeat.states_of_isZero {bounds : Repeat} {mode : CountMode} {copy : Nat}
    (hzero : bounds.isZero mode = true) : bounds.states mode copy = 0 := by
  obtain ⟨hstarred, -, hmax⟩ := isZero_iff.mp hzero
  simp [states, hstarred, hmax]

/-- Bounds without a fault that ask for a copy need as many states as are counted. -/
lemma Repeat.innerStates_repeated {bounds : Repeat} {options : Options}
    (hfault : bounds.fault? options = none) (hzero : bounds.isZero options.countMode = false)
    (body : Pattern) :
    (body.repeated bounds.min.toNat
      ((bounds.maximum options.countMode).map UInt32.toNat)).innerStates =
        bounds.states options.countMode body.innerStates := by
  have hle := bounds.min_le_maximum hfault
  unfold states
  split
  · next hmax => rw [hmax, Pattern.innerStates_repeated_none]
  · next hmax =>
    -- A bare count of zero is no copy at all, so this maximum is that of a starred repetition.
    have hstarred : bounds.starred = true := by
      obtain ⟨max, hmaximum, hnumber⟩ := Option.map_eq_some_iff.mp hmax
      have hmin : bounds.min = 0 := UInt32.toNat_inj.mp (Nat.le_zero.mp (hle 0 hmax))
      have hmaximum_zero : max = 0 := UInt32.toNat_inj.mp hnumber
      simpa [isZero, hmin, hmaximum, hmaximum_zero] using hzero
    rw [hmax, Pattern.innerStates_repeated_some (hle 0 hmax), if_pos hstarred]
    ring
  · next max hpos hmax =>
    have hone : 1 ≤ max := Nat.pos_of_ne_zero hpos
    rw [hmax, Pattern.innerStates_repeated_some (hle max hmax), Nat.sub_add_cancel hone]

/-! ### Bodies -/

section

variable {options : Options} {counts : String → Nat} {rule : String}
  {inline : String → Except ExpansionError Pattern}

mutual

lemma Element.innerStates_expand
    (hinline : ∀ name pattern, inline name = .ok pattern → pattern.innerStates = counts name) :
    ∀ (element : Element) (pattern : Pattern),
      element.expand options rule inline = .ok pattern →
      pattern.innerStates = element.states options counts
  | .reference name, pattern, h => hinline name pattern h
  | .group body, pattern, h => Alternation.innerStates_expand hinline body pattern h
  | .option body, pattern, h => by
    obtain ⟨inner, hbody, rfl⟩ := Element.expand_option_eq_ok.mp h
    rw [Pattern.innerStates, Pattern.innerStates, Nat.zero_add, Element.states]
    exact Alternation.innerStates_expand hinline body inner hbody
  | .literal octets, pattern, h | .prose octets, pattern, h => by
    obtain rfl : Pattern.text octets = pattern := Except.ok.inj h
    rw [Pattern.text, Pattern.innerStates_classes, List.length_map, Element.states]
  | .numeric value, pattern, h => by
    obtain ⟨-, rfl⟩ := Element.expand_numeric_eq_ok.mp h
    exact value.innerStates_pattern options.rangeMode

lemma Repetition.innerStates_expand
    (hinline : ∀ name pattern, inline name = .ok pattern → pattern.innerStates = counts name) :
    ∀ (repetition : Repetition) (pattern : Pattern),
      repetition.expand options rule inline = .ok pattern →
      pattern.innerStates = repetition.states options counts
  | ⟨none, element⟩, pattern, h => Element.innerStates_expand hinline element pattern h
  | ⟨some bounds, element⟩, pattern, h => by
    obtain ⟨hfault, ⟨hzero, rfl⟩ | ⟨hzero, inner, helement, rfl⟩⟩ :=
      Repetition.expand_bounds_eq_ok.mp h
    · rw [Repetition.states, Repeat.states_of_isZero hzero, Pattern.innerStates]
    · rw [Repetition.states, Repeat.innerStates_repeated hfault hzero,
        Element.innerStates_expand hinline element inner helement]

lemma Concatenation.innerStates_expand
    (hinline : ∀ name pattern, inline name = .ok pattern → pattern.innerStates = counts name) :
    ∀ (branch : Concatenation) (pattern : Pattern),
      Concatenation.expand options rule inline branch = .ok pattern →
      pattern.innerStates = Concatenation.states options counts branch
  | [], pattern, h => by
    obtain rfl : Pattern.skip = pattern := Except.ok.inj h
    rfl
  | [repetition], pattern, h => Repetition.innerStates_expand hinline repetition pattern h
  | repetition :: next :: rest, pattern, h => by
    obtain ⟨first, hfirst, second, hsecond, rfl⟩ := Concatenation.expand_cons_cons_eq_ok.mp h
    simp only [Concatenation.states, Pattern.innerStates,
      Repetition.innerStates_expand hinline repetition first hfirst,
      Concatenation.innerStates_expand hinline (next :: rest) second hsecond]

/-- The pattern of a body needs as many states as are counted, if those of its names do. -/
lemma Alternation.innerStates_expand
    (hinline : ∀ name pattern, inline name = .ok pattern → pattern.innerStates = counts name) :
    ∀ (body : Alternation) (pattern : Pattern),
      Alternation.expand options rule inline body = .ok pattern →
      pattern.innerStates = Alternation.states options counts body
  | [], pattern, h => by cases h
  | [branch], pattern, h => Concatenation.innerStates_expand hinline branch pattern h
  | branch :: next :: rest, pattern, h => by
    obtain ⟨first, hfirst, second, hsecond, rfl⟩ := Alternation.expand_cons_cons_eq_ok.mp h
    rw [Alternation.states, Pattern.innerStates,
      Concatenation.innerStates_expand hinline branch first hfirst,
      Alternation.innerStates_expand hinline (next :: rest) second hsecond]

end

end

end AugmentedBnf
