import AugmentedBnf.Proofs.Compilation.Language
import AugmentedBnf.Proofs.Compilation.Termination
import AugmentedBnf.Proofs.Expansion.Faults

/-!
# The repeat limit

Two expansions of a name that differ in their repeat limits go through the same bodies until one of
them comes to bounds that need more copies than it allows. The one with the lesser limit is the
first to do so, and it stops there. So all that a lesser limit does is to put its own error in the
place of a pattern or of another error.

* `Repeat.fault?_of_le`: the step, bounds under both limits.
* `RegularRules.isLimited_inline`: the run, names under both limits.
* `RegularRules.compile_of_le_limit`: what compilation under one limit tells of that under another.
-/

namespace AugmentedBnf

/-- Under a greater limit bounds have the same fault or lack of one, unless they exceed the lesser
limit. -/
lemma Repeat.fault?_of_le {options : Options} {limit : UInt32} (hle : options.repeatLimit ≤ limit)
    (bounds : Repeat) :
    bounds.fault? options = bounds.fault? { options with repeatLimit := limit } ∨
      ∃ count, options.repeatLimit < count ∧
        bounds.fault? options = some (.repeatTooLarge count options.repeatLimit) := by
  by_cases hlimit : options.repeatLimit < (bounds.maximum options.countMode).getD bounds.min
  · refine .inr ⟨_, hlimit, ?_⟩
    simp only [fault?, hlimit, if_true]
  · have hlimit' : ¬ limit < (bounds.maximum options.countMode).getD bounds.min := by
      intro hlt
      exact hlimit (UInt32.lt_of_le_of_lt hle hlt)
    left
    simp only [fault?, hlimit, hlimit', if_false]

/-- An answer tells that a repetition needs more copies than a limit allows. -/
def ExceedsLimit (limit : UInt32) (answer : Except ExpansionError Pattern) : Prop :=
  ∃ count rule, limit < count ∧ answer = .error (.faulty (.repeatTooLarge count limit) rule)

/-- An answer under a limit is the same as another one, or else it tells that the limit is
exceeded. -/
def IsLimited (limit : UInt32) (answer other : Except ExpansionError Pattern) : Prop :=
  ExceedsLimit limit answer ∨ answer = other

lemma isStable_isLimited (limit : UInt32) : IsStable (IsLimited limit) := by
  refine isStable_or_eq fun {answer next} hexceeds => ?_
  obtain ⟨count, rule, hcount, rfl⟩ := hexceeds
  exact ⟨count, rule, hcount, rfl⟩

lemma answersAlike_of_le {options : Options} {limit : UInt32}
    (hle : options.repeatLimit ≤ limit) :
    AnswersAlike (IsLimited options.repeatLimit) options { options with repeatLimit := limit } where
  rangeMode := rfl
  countMode := rfl
  fault? bounds := by
    rcases bounds.fault?_of_le hle with hsame | ⟨count, hcount, hfault⟩
    · exact .inl hsame
    · exact .inr ⟨_, hfault, fun rule _ => .inl ⟨count, rule, hcount, rfl⟩⟩

namespace RegularRules

variable {regular : RegularRules} {options : Options} {limit : UInt32} {depth : Nat}
  {rule name root : String}

/-- At the same depth a name has the same answer under a greater limit, or it exceeds the lesser
limit. -/
lemma isLimited_inline (hle : options.repeatLimit ≤ limit) :
    IsLimited options.repeatLimit (regular.inline options depth rule name)
      (regular.inline { options with repeatLimit := limit } depth rule name) := by
  refine inline_rel keepsNames_eq (congrArg Rule.marker) (fun _ => .inr rfl) ?_
    (List.forall₂_same.mpr fun _ _ => rfl) depth rule name
  rintro found _ inline inline' rfl hinline
  exact Alternation.expand_related (isStable_isLimited _) (answersAlike_of_le hle) found.body
    fun name _ => hinline name

lemma resolve_ne_tooLarge {count bound : UInt32} {user : String} :
    regular.resolve rule name ≠ .error (.faulty (.repeatTooLarge count bound) user) := by
  intro h
  unfold resolve at h
  split at h
  · cases h
  · split at h <;> cases h

/-- An error about too many copies tells the limit, and more copies than the limit allows. -/
lemma inline_eq_tooLarge {count bound : UInt32} {user : String}
    (h : regular.inline options depth rule name =
      .error (.faulty (.repeatTooLarge count bound) user)) :
    bound = options.repeatLimit ∧ bound < count := by
  induction depth generalizing rule name with
  | zero =>
    rw [inline, bind_eq_error] at h
    rcases h with h | ⟨_, -, h⟩
    · exact absurd h resolve_ne_tooLarge
    · cases h
  | succ depth ih =>
    rw [inline, bind_eq_error] at h
    rcases h with h | ⟨found, -, h⟩
    · exact absurd h resolve_ne_tooLarge
    · rcases Alternation.expand_eq_error found.body h with ⟨fault, hown, heq⟩ | ⟨_, -, h⟩
      · cases heq
        cases hown with
        | bounds hfault =>
          cases hfault with
          | tooLarge _ hlimit => exact ⟨rfl, hlimit⟩
        | numeric hfault => cases hfault
      · exact ih h

/-! ### Compilation -/

/-- Compilation gives the same under a greater limit, or it exceeds the lesser limit. -/
lemma compile_eq_or_exceeds (hle : options.repeatLimit ≤ limit) :
    regular.compile options root = regular.compile { options with repeatLimit := limit } root ∨
      ∃ count rule, options.repeatLimit < count ∧ regular.compile options root =
        .error (.expansion (.faulty (.repeatTooLarge count options.repeatLimit) rule)) := by
  have hlimited : IsLimited options.repeatLimit (regular.expand options root)
      (regular.expand { options with repeatLimit := limit } root) := isLimited_inline hle
  rcases hlimited with ⟨count, rule, hcount, hexceeds⟩ | hsame
  · exact .inr ⟨count, rule, hcount, by simp only [compile, hexceeds]⟩
  · exact .inl (by simp only [compile, hsame])

lemma compile_eq_tooLarge {count bound : UInt32} {user : String}
    (h : regular.compile options root =
      .error (.expansion (.faulty (.repeatTooLarge count bound) user))) :
    bound = options.repeatLimit ∧ bound < count :=
  inline_eq_tooLarge (expand_eq_of_compile h)

/-- A name that has an automaton under a limit has the same one under every greater limit, and an
error that is not about too many copies stays the same, too. If the error under the greater limit is
about too many copies, so is the one under the lesser, perhaps about an earlier repetition. Such an
error tells the limit, and a count above it. -/
theorem compile_of_le_limit (hle : options.repeatLimit ≤ limit) (root : String) :
    (∀ nfa, regular.compile options root = .ok nfa →
      regular.compile { options with repeatLimit := limit } root = .ok nfa) ∧
    (∀ error, regular.compile options root = .error error →
      (∀ count bound rule, error ≠ .expansion (.faulty (.repeatTooLarge count bound) rule)) →
      regular.compile { options with repeatLimit := limit } root = .error error) ∧
    ∀ count bound rule, regular.compile { options with repeatLimit := limit } root =
        .error (.expansion (.faulty (.repeatTooLarge count bound) rule)) →
      bound = limit ∧ bound < count ∧ ∃ count' rule', options.repeatLimit < count' ∧
        regular.compile options root =
          .error (.expansion (.faulty (.repeatTooLarge count' options.repeatLimit) rule')) := by
  have hcases := @compile_eq_or_exceeds regular options limit root hle
  refine ⟨fun nfa hnfa => ?_, fun error herror hother => ?_, fun count bound rule htooLarge => ?_⟩
  · rcases hcases with hsame | ⟨count, rule, -, hexceeds⟩
    · rw [← hsame, hnfa]
    · rw [hnfa] at hexceeds
      cases hexceeds
  · rcases hcases with hsame | ⟨count, rule, -, hexceeds⟩
    · rw [← hsame, herror]
    · rw [herror] at hexceeds
      exact absurd (Except.error.inj hexceeds) (hother _ _ _)
  · obtain ⟨hbound, hcount⟩ := compile_eq_tooLarge htooLarge
    refine ⟨hbound, hcount, ?_⟩
    rcases hcases with hsame | hexceeds
    · rw [htooLarge] at hsame
      obtain ⟨rfl, -⟩ := compile_eq_tooLarge hsame
      exact ⟨count, rule, hcount, hsame⟩
    · exact hexceeds

/-- The rules `list = 3item *9("," item)`, `item = "i"` and `late = 2list %x100`. -/
def limitedRules : List Rule :=
  [⟨"list", .basic, [[⟨some (.count 3), .reference "item"⟩,
      ⟨some (.between 0 (some 9)),
        .group [[.once (.literal [0x2C]), .once (.reference "item")]]⟩]]⟩,
    ⟨"item", .basic, [[.once (.literal [0x69])]]⟩,
    ⟨"late", .basic, [[⟨some (.count 2), .reference "list"⟩,
      .once (.numeric ⟨.hexadecimal, false, [0x100]⟩)]]⟩]

/-- A list needs nine copies. Under a limit below that, the number that is no octet is not come to,
and under one below three it is the earlier repetition that exceeds it. -/
theorem compile_of_le_limit_limitedRules :
    (∃ nfa, (classify limitedRules).regular.compile { repeatLimit := 9 } "list" = .ok nfa ∧
      (classify limitedRules).regular.compile {} "list" = .ok nfa) ∧
    (classify limitedRules).regular.compile {} "late" =
      .error (.expansion (.faulty (.valueOutOfRange 0x100) "late")) ∧
    (classify limitedRules).regular.compile { repeatLimit := 8 } "late" =
      .error (.expansion (.faulty (.repeatTooLarge 9 8) "list")) ∧
    ∃ count rule, 2 < count ∧
      (classify limitedRules).regular.compile { repeatLimit := 2 } "late" =
        .error (.expansion (.faulty (.repeatTooLarge count 2) rule)) := by
  have hpattern : ∃ pattern,
      (classify limitedRules).regular.expand { repeatLimit := 9 } "list" = .ok pattern := ⟨_, rfl⟩
  have hlate : (classify limitedRules).regular.compile { repeatLimit := 9 } "late" =
      .error (.expansion (.faulty (.valueOutOfRange 0x100) "late")) := rfl
  have htooLarge : (classify limitedRules).regular.compile { repeatLimit := 8 } "late" =
      .error (.expansion (.faulty (.repeatTooLarge 9 8) "list")) := rfl
  obtain ⟨nfa, hnfa⟩ := exists_compile_iff.mpr hpattern
  have hgreater := @compile_of_le_limit (classify limitedRules).regular { repeatLimit := 9 }
    defaultRepeatLimit (by decide)
  have hlesser := @compile_of_le_limit (classify limitedRules).regular { repeatLimit := 2 } 8
    (by decide)
  obtain ⟨hsame, -, -⟩ := hgreater "list"
  obtain ⟨-, hstays, -⟩ := hgreater "late"
  obtain ⟨-, -, hearlier⟩ := hlesser "late"
  obtain ⟨-, -, hexceeds⟩ := hearlier _ _ _ htooLarge
  exact ⟨⟨nfa, hnfa, hsame nfa hnfa⟩, hstays _ hlate (by simp), htooLarge, hexceeds⟩

end RegularRules

end AugmentedBnf
