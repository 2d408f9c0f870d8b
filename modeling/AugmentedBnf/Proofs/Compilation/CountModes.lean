import AugmentedBnf.Compilation
import AugmentedBnf.Proofs.Expansion.Bounds
import AugmentedBnf.Proofs.Grammar.RoundTrip

/-!
# Count modes

A bare count can be written around a `*` instead, either as a minimum without a maximum or as both a
minimum and a maximum. The count mode is the choice between these: with either in the place of all
bare counts it makes no difference any more.

* `Alternation.wellFormed_allBounds`: no bare count that is read sets a maximum.
* `RegularRules.compile_rewrites_counts`: the automata and errors of rewritten rules.
-/

namespace AugmentedBnf

/-- A bare count `n` as `n*`. -/
def Repeat.openCount (bounds : Repeat) : Repeat :=
  if bounds.starred then bounds else .between bounds.min none

/-- A bare count `n` as `n*n`. -/
def Repeat.closeCount (bounds : Repeat) : Repeat :=
  if bounds.starred then bounds else .between bounds.min (some bounds.min)

namespace Repeat

variable {bounds : Repeat}

/-- Bounds around a `*` are read alike under both count modes. -/
lemma readsAs_self (hstarred : bounds.starred = true) (mode mode' : CountMode) :
    bounds.ReadsAs mode mode' bounds where
  min := rfl
  maximum := by simp only [maximum, hstarred]
  isZero := by simp only [isZero, hstarred, Bool.not_true, Bool.false_and]

/-- A bare count that sets no maximum asks for that many copies or more. -/
lemma readsAs_openCount (h : bounds.WellFormed) (mode : CountMode) :
    bounds.ReadsAs .atLeast mode bounds.openCount := by
  unfold openCount
  split_ifs with hstarred
  · exact readsAs_self hstarred _ _
  · rw [Bool.not_eq_true] at hstarred
    have hmax := h hstarred
    constructor
    · rfl
    · simp only [maximum, between, hstarred, hmax]
    · simp [isZero, maximum, between, hmax]

/-- A bare count other than zero asks for that many copies. -/
lemma readsAs_closeCount (h : bounds.starred = false → bounds.min ≠ 0) (mode : CountMode) :
    bounds.ReadsAs .exact mode bounds.closeCount := by
  unfold closeCount
  split_ifs with hstarred
  · exact readsAs_self hstarred _ _
  · rw [Bool.not_eq_true] at hstarred
    have hmin := h hstarred
    constructor
    · rfl
    · simp only [maximum, between, hstarred]
    · simp [isZero, between, hmin]

end Repeat

mutual

lemma Element.wellFormed_allBounds : ∀ element : Element, element.WellFormed →
    ∀ bounds ∈ element.allBounds, bounds.WellFormed
  | .reference _, _ | .literal _, _ | .numeric _, _ | .prose _, _ => List.forall_mem_nil _
  | .group body, h | .option body, h => by
    rw [Element.WellFormed] at h
    exact Alternation.wellFormed_allBounds body h

lemma Repetition.wellFormed_allBounds : ∀ repetition : Repetition, repetition.WellFormed →
    ∀ bounds ∈ repetition.allBounds, bounds.WellFormed
  | ⟨none, element⟩, h => by
    rw [Repetition.WellFormed] at h
    exact Element.wellFormed_allBounds element h
  | ⟨some bounds, element⟩, h => by
    rw [Repetition.WellFormed] at h
    exact List.forall_mem_cons.mpr ⟨h.1, Element.wellFormed_allBounds element h.2⟩

lemma Concatenation.wellFormed_allBounds : ∀ branch : Concatenation, branch.WellFormed →
    ∀ bounds ∈ Concatenation.allBounds branch, bounds.WellFormed
  | [], _ => List.forall_mem_nil _
  | [repetition], h => by
    rw [Concatenation.WellFormed] at h
    exact List.forall_mem_append.mpr
      ⟨Repetition.wellFormed_allBounds repetition h, List.forall_mem_nil _⟩
  | repetition :: next :: rest, h => by
    rw [Concatenation.wellFormed_cons (List.cons_ne_nil _ _)] at h
    exact List.forall_mem_append.mpr ⟨Repetition.wellFormed_allBounds repetition h.1,
      Concatenation.wellFormed_allBounds (next :: rest) h.2⟩

/-- No bare count in a well-formed body sets a maximum. -/
lemma Alternation.wellFormed_allBounds : ∀ body : Alternation, body.WellFormed →
    ∀ bounds ∈ Alternation.allBounds body, bounds.WellFormed
  | [], _ => List.forall_mem_nil _
  | [branch], h => by
    rw [Alternation.WellFormed] at h
    exact List.forall_mem_append.mpr
      ⟨Concatenation.wellFormed_allBounds branch h, List.forall_mem_nil _⟩
  | branch :: next :: rest, h => by
    rw [Alternation.wellFormed_cons (List.cons_ne_nil _ _)] at h
    exact List.forall_mem_append.mpr ⟨Concatenation.wellFormed_allBounds branch h.1,
      Alternation.wellFormed_allBounds (next :: rest) h.2⟩

end

/-! ### Rules -/

namespace RegularRules

variable {rules : List Rule}

/-- Rules with other bounds that are read alike have the same automata and the same errors. -/
lemma compile_mapBounds {mode mode' : CountMode} {f : Repeat → Repeat}
    (h : ∀ rule ∈ rules, ∀ bounds ∈ Alternation.allBounds rule.body,
      bounds.ReadsAs mode mode' (f bounds)) (options : Options) (root : String) :
    (classify rules).regular.compile { options with countMode := mode } root =
      (classify (rules.map (Rule.mapBounds f))).regular.compile
        { options with countMode := mode' } root := by
  simp only [compile, expand_mapBounds h]

/-- Rules that are read have no bare count with a maximum. If rules have none, then under the count
mode of minimums every name has the automaton or the error that it has with `n*` in the place of
every bare count `n`, whatever the count mode of these is. If no bare count is zero, then under the
count mode of exact counts it has those that it has with `n*n`. -/
theorem compile_rewrites_counts (rules : List Rule) (options : Options) (root : String) :
    (∀ document grammar, Grammar.read document = .ok grammar → grammar.rules = rules →
      ∀ rule ∈ rules, ∀ bounds ∈ Alternation.allBounds rule.body,
        bounds.starred = false → bounds.max = none) ∧
    ((∀ rule ∈ rules, ∀ bounds ∈ Alternation.allBounds rule.body,
        bounds.starred = false → bounds.max = none) →
      ∀ mode, (classify rules).regular.compile { options with countMode := .atLeast } root =
        (classify (rules.map (Rule.mapBounds Repeat.openCount))).regular.compile
          { options with countMode := mode } root) ∧
    ((∀ rule ∈ rules, ∀ bounds ∈ Alternation.allBounds rule.body,
        bounds.starred = false → bounds.min ≠ 0) →
      ∀ mode, (classify rules).regular.compile { options with countMode := .exact } root =
        (classify (rules.map (Rule.mapBounds Repeat.closeCount))).regular.compile
          { options with countMode := mode } root) := by
  refine ⟨?_, fun hbounds mode => ?_, fun hbounds mode => ?_⟩
  · rintro document grammar hread rfl rule hrule
    have hbody := ((Grammar.wellFormed_of_read hread).rules rule hrule).body
    exact Alternation.wellFormed_allBounds rule.body hbody
  · refine compile_mapBounds (fun rule hrule bounds hmem => ?_) options root
    exact Repeat.readsAs_openCount (hbounds rule hrule bounds hmem) mode
  · refine compile_mapBounds (fun rule hrule bounds hmem => ?_) options root
    exact Repeat.readsAs_closeCount (hbounds rule hrule bounds hmem) mode

/-- The rules `r = 2("a" / 1*3"b") 0*0s` and `s = [3"c"]`. -/
def countingRules : List Rule :=
  [⟨"r", .basic, [[
      ⟨some (.count 2), .group [[.once (.literal [0x61])],
        [⟨some (.between 1 (some 3)), .literal [0x62]⟩]]⟩,
      ⟨some (.between 0 (some 0)), .reference "s"⟩]]⟩,
    ⟨"s", .basic, [[.once (.option [[⟨some (.count 3), .literal [0x63]⟩]])]]⟩]

/-- Counts inside of an option and in the rule referred to are rewritten, too. The two count modes
differ on these rules, but neither does on what they become. -/
theorem compile_rewrites_counts_countingRules :
    (∀ rule ∈ countingRules, ∀ bounds ∈ Alternation.allBounds rule.body,
      bounds.starred = false → bounds.max = none ∧ bounds.min ≠ 0) ∧
    (∀ mode, (classify countingRules).regular.compile {} "r" =
      (classify (countingRules.map (Rule.mapBounds Repeat.openCount))).regular.compile
        { countMode := mode } "r") ∧
    (∀ mode, (classify countingRules).regular.compile { countMode := .exact } "r" =
      (classify (countingRules.map (Rule.mapBounds Repeat.closeCount))).regular.compile
        { countMode := mode } "r") ∧
    (classify countingRules).regular.expand {} "r" ≠
      (classify countingRules).regular.expand { countMode := .exact } "r" := by
  have hbounds : ∀ rule ∈ countingRules, ∀ bounds ∈ Alternation.allBounds rule.body,
      bounds.starred = false → bounds.max = none ∧ bounds.min ≠ 0 := by
    decide
  obtain ⟨-, hopen, hclose⟩ := compile_rewrites_counts countingRules {} "r"
  refine ⟨hbounds, hopen fun rule hrule bounds hmem hbare => ?_,
    hclose fun rule hrule bounds hmem hbare => ?_, by decide⟩
  · exact (hbounds rule hrule bounds hmem hbare).1
  · exact (hbounds rule hrule bounds hmem hbare).2

end RegularRules

end AugmentedBnf
