import AugmentedBnf.Proofs.Denotation.Basic
import AugmentedBnf.Proofs.Expansion.Basic
import AugmentedBnf.Proofs.Pattern.Language

/-!
# Expansion keeps denotations

The pattern that a rule body is expanded to describes the words that the body describes.
-/

namespace AugmentedBnf

/-- A numeric value without a fault describes the words of its pattern. -/
lemma Numeric.denotes_iff {value : Numeric} {mode : RangeMode} {word : List Octet}
    (hfault : value.fault? mode = none) :
    value.Denotes mode word ↔ word ∈ (value.pattern mode).language := by
  have hsmall : ∀ number ∈ value.values, number.toUInt8.toNat = number.toNat :=
    fun _ => Numeric.toNat_toUInt8 hfault
  have hword : word.map UInt8.toNat = value.values.map UInt32.toNat ↔
      word ∈ (Pattern.word (value.values.map UInt32.toUInt8)).language := by
    have hvalues : value.values.map UInt32.toNat =
        (value.values.map UInt32.toUInt8).map UInt8.toNat := by
      rw [List.map_map]
      exact List.map_congr_left fun number hnumber => (hsmall number hnumber).symm
    rw [hvalues, Pattern.mem_language_word]
    exact (List.map_injective_iff.mpr fun _ _ => UInt8.toNat_inj.mp).eq_iff
  obtain ⟨radix, ranged, values⟩ := value
  unfold Denotes pattern
  cases ranged with
  | false => exact hword
  | true =>
    cases mode with
    | sequence => exact hword
    | inclusive =>
      match values with
      | [] => exact hword
      | [_] => exact hword
      | _ :: _ :: _ :: _ => exact hword
      | [lower, upper] =>
        have hlower := hsmall lower (by simp)
        have hupper := hsmall upper (by simp)
        simp only [Pattern.mem_language_range, UInt8.le_iff_toNat_le, hlower, hupper]

/-- Bounds that ask for no copy allow for none. -/
lemma Repeat.allows_of_isZero {bounds : Repeat} {mode : CountMode} {count : Nat}
    (hzero : bounds.isZero mode) : bounds.Allows mode count ↔ count = 0 := by
  obtain ⟨hstarred, hmin, hmax⟩ := isZero_iff.mp hzero
  simp [Allows, hstarred, hmin, hmax]

/-- Bounds without a fault allow for the copies that their pattern is repeated for. -/
lemma Repeat.allows_iff {bounds : Repeat} {options : Options} {count : Nat}
    (hfault : bounds.fault? options = none) (hzero : bounds.isZero options.countMode = false) :
    bounds.Allows options.countMode count ↔ bounds.min.toNat ≤ count ∧
      ∀ max ∈ (bounds.maximum options.countMode).map UInt32.toNat, count ≤ Nat.max max 1 := by
  have hle := bounds.min_le_maximum hfault
  unfold isZero at hzero
  unfold Allows
  cases hmax : bounds.maximum options.countMode with
  | none => simp
  | some max =>
    simp only [hmax, Option.map_some, Option.mem_some_iff, forall_eq'] at hle ⊢
    -- Where the maximum is raised to one copy it was zero, and else it was one at least.
    have hmaximum : (if bounds.starred ∧ bounds.min = 0 ∧ max = 0 then 1 else max.toNat) =
        Nat.max max.toNat 1 := by
      split_ifs with h
      · simp [h]
      · have hmax_ne : max.toNat ≠ 0 := by
          intro hmax_zero
          have hmin : bounds.min = 0 := UInt32.toNat_inj.mp (Nat.le_zero.mp (hmax_zero ▸ hle))
          have hmax : max = 0 := UInt32.toNat_inj.mp hmax_zero
          simp_all
        exact (Nat.max_eq_left (Nat.one_le_iff_ne_zero.mpr hmax_ne)).symm
    rw [hmaximum]

/-! ### Bodies and names -/

section

variable {rules : List Rule} {options : Options} {rule : String}
  {inline : String → Except ExpansionError Pattern} {word : List Octet}

/-- The function that expands references does so truly. -/
def KeepsDenotations (rules : List Rule) (options : Options)
    (inline : String → Except ExpansionError Pattern) : Prop :=
  ∀ name pattern, inline name = .ok pattern → ∀ word,
    Element.Denotes rules options (.reference name) word ↔ word ∈ pattern.language

lemma Element.denotesTimes_iff {element : Element} {l : Language Octet}
    (h : ∀ word, Element.Denotes rules options element word ↔ word ∈ l) {count : Nat} :
    Element.DenotesTimes rules options count element word ↔ word ∈ l ^ count := by
  induction count generalizing word with
  | zero =>
    rw [pow_zero, Language.mem_one]
    constructor
    · rintro (_ | _)
      rfl
    · rintro rfl
      exact .zero
  | succ count ih =>
    rw [pow_succ', Language.mem_mul]
    constructor
    · rintro (_ | ⟨hfirst, hrest⟩)
      exact ⟨_, (h _).mp hfirst, _, ih.mp hrest, rfl⟩
    · rintro ⟨first, hfirst, rest, hrest, rfl⟩
      exact .succ ((h _).mpr hfirst) (ih.mpr hrest)

mutual

lemma Element.denotes_expand (hinline : KeepsDenotations rules options inline) :
    ∀ (element : Element) (pattern : Pattern) (word : List Octet),
      Element.expand options rule inline element = .ok pattern →
      (Element.Denotes rules options element word ↔ word ∈ pattern.language)
  | .reference name, pattern, word, h => hinline name pattern h word
  | .group body, pattern, word, h => by
    rw [Element.denotes_group]
    exact Alternation.denotes_expand hinline body pattern word h
  | .option body, pattern, word, h => by
    obtain ⟨inner, hbody, rfl⟩ := Element.expand_option_eq_ok.mp h
    rw [Element.denotes_option, Alternation.denotes_expand hinline body inner word hbody]
    rfl
  | .literal octets, pattern, word, h => by
    obtain rfl : Pattern.text octets = pattern := Except.ok.inj h
    rw [Element.denotes_literal, Pattern.mem_language_text]
  | .prose octets, pattern, word, h => by
    obtain rfl : Pattern.text octets = pattern := Except.ok.inj h
    rw [Element.denotes_prose, Pattern.mem_language_text]
  | .numeric value, pattern, word, h => by
    obtain ⟨hfault, rfl⟩ := Element.expand_numeric_eq_ok.mp h
    rw [Element.denotes_numeric, Numeric.denotes_iff hfault]

lemma Repetition.denotes_expand (hinline : KeepsDenotations rules options inline) :
    ∀ (repetition : Repetition) (pattern : Pattern) (word : List Octet),
      Repetition.expand options rule inline repetition = .ok pattern →
      (Repetition.Denotes rules options repetition word ↔ word ∈ pattern.language)
  | ⟨none, element⟩, pattern, word, h => by
    rw [Repetition.denotes_once]
    exact Element.denotes_expand hinline element pattern word h
  | ⟨some bounds, element⟩, pattern, word, h => by
    rw [Repetition.denotes_repeated]
    obtain ⟨hfault, ⟨hzero, rfl⟩ | ⟨hzero, inner, helement, rfl⟩⟩ :=
      Repetition.expand_bounds_eq_ok.mp h
    · simp only [Repeat.allows_of_isZero hzero, exists_eq_left, Pattern.mem_language_skip]
      constructor
      · intro hcopies
        cases hcopies
        rfl
      · rintro rfl
        exact .zero
    · have hcopies : ∀ count, Element.DenotesTimes rules options count element word ↔
          word ∈ inner.language ^ count := fun count => Element.denotesTimes_iff
        fun word => Element.denotes_expand hinline element inner word helement
      rw [Pattern.mem_language_repeated (Repeat.min_le_maximum hfault)]
      simp only [hcopies, Repeat.allows_iff hfault hzero, and_assoc]

lemma Concatenation.denotes_expand (hinline : KeepsDenotations rules options inline) :
    ∀ (branch : Concatenation) (pattern : Pattern) (word : List Octet),
      Concatenation.expand options rule inline branch = .ok pattern →
      (Concatenation.Denotes rules options branch word ↔ word ∈ pattern.language)
  | [], pattern, word, h => by
    obtain rfl : Pattern.skip = pattern := Except.ok.inj h
    rw [Concatenation.denotes_nil, Pattern.mem_language_skip]
  | [repetition], pattern, word, h => by
    rw [Concatenation.denotes_singleton]
    exact Repetition.denotes_expand hinline repetition pattern word h
  | repetition :: next :: rest, pattern, word, h => by
    obtain ⟨first, hfirst, second, hsecond, rfl⟩ := Concatenation.expand_cons_cons_eq_ok.mp h
    rw [Concatenation.denotes_cons, Pattern.language, Language.mem_mul]
    simp only [Repetition.denotes_expand hinline repetition first _ hfirst,
      Concatenation.denotes_expand hinline (next :: rest) second _ hsecond]

lemma Alternation.denotes_expand (hinline : KeepsDenotations rules options inline) :
    ∀ (body : Alternation) (pattern : Pattern) (word : List Octet),
      Alternation.expand options rule inline body = .ok pattern →
      (Alternation.Denotes rules options body word ↔ word ∈ pattern.language)
  | [], pattern, word, h => by
    cases h
  | [branch], pattern, word, h => by
    rw [Alternation.denotes_singleton]
    exact Concatenation.denotes_expand hinline branch pattern word h
  | branch :: next :: rest, pattern, word, h => by
    obtain ⟨first, hfirst, second, hsecond, rfl⟩ := Alternation.expand_cons_cons_eq_ok.mp h
    rw [Alternation.denotes_cons, Pattern.language, Language.mem_add,
      Concatenation.denotes_expand hinline branch first word hfirst,
      Alternation.denotes_expand hinline (next :: rest) second word hsecond]

end

end

namespace RegularRules

variable {regular : RegularRules} {rules : List Rule} {options : Options}

/-- If names are defined once, the pattern of a name describes the words of its definition. -/
lemma denotes_inline (hsubset : regular.rules ⊆ rules) (hnames : (rules.map Rule.name).Nodup)
    (depth : Nat) (rule : String) :
    KeepsDenotations rules options (regular.inline options depth rule) := by
  refine inline_induction ?_ depth rule
  intro found hmem inline hinline pattern hbody word
  rw [Element.denotes_reference, exists_mem_name_iff hnames (hsubset hmem)]
  exact Alternation.denotes_expand hinline found.body pattern word hbody

end RegularRules

end AugmentedBnf
