import AugmentedBnf.Proofs.Octet
import AugmentedBnf.Proofs.Reader.Lexical
import AugmentedBnf.Reader.Body

/-!
# What the readers of bounds and numeric values read

Whatever these readers take is derived. In the other direction they take what is derived where no
numeral, name or numeric value goes on behind it.
-/

namespace AugmentedBnf

namespace Reader

lemma bound_eq_ok {input rest : List Octet} {bound : Option UInt32} :
    optional (number .decimal) input = .ok (bound, rest) ↔
      BoundDerives bound input rest ∧ Bars Octet.isDigit rest := by
  rw [optional_eq_ok]
  constructor
  · intro h
    obtain ⟨number, hnumber, rfl⟩ | ⟨hdeclines, rfl, rfl⟩ := h
    · obtain ⟨hnumber, hbars⟩ := number_eq_ok.mp hnumber
      exact ⟨BoundDerives.present hnumber, hbars⟩
    · exact ⟨BoundDerives.absent input, number_declines.mp hdeclines⟩
  · intro h
    obtain ⟨hbound, hbars⟩ := h
    cases hbound with
    | absent => exact Or.inr ⟨number_declines.mpr hbars, rfl, rfl⟩
    | present hnumber => exact Or.inl ⟨_, number_eq_ok.mpr ⟨hnumber, hbars⟩, rfl⟩

lemma derives_of_bounds {input rest : List Octet} {value : Repeat}
    (h : bounds input = .ok (value, rest)) : value.Derives input rest := by
  simp only [bounds, AugmentedBnf.bind_eq_ok, Prod.exists] at h
  obtain ⟨min, middle, hmin, star, behind, hstar, h⟩ := h
  obtain ⟨hmin, -⟩ := bound_eq_ok.mp hmin
  simp only [optional_eq_ok, exactly_eq_ok] at hstar
  obtain ⟨_, rfl, rfl⟩ | ⟨-, rfl, rfl⟩ := hstar
  · simp only [AugmentedBnf.bind_eq_ok, Prod.exists] at h
    obtain ⟨max, _, hmax, h⟩ := h
    cases h
    exact Repeat.Derives.between hmin (bound_eq_ok.mp hmax).1
  · cases hmin with
    | absent => cases h
    | present hnumber =>
      cases h
      exact Repeat.Derives.count hnumber

lemma bars_digit_of_bars_bound {rest : List Octet} (h : Bars Octet.isBound rest) :
    Bars Octet.isDigit rest :=
  fun octet hoctet => (Bool.or_eq_false_iff.mp (h octet hoctet)).1

lemma exactly_star_declines {rest : List Octet} (h : Bars Octet.isBound rest) :
    (exactly .repeatStar '*').Declines rest :=
  exactly_declines.mpr fun octet hoctet => (Bool.or_eq_false_iff.mp (h octet hoctet)).2

lemma bounds_of_derives {input rest : List Octet} {value : Repeat} (h : value.Derives input rest)
    (hrest : Bars Octet.isBound rest) : bounds input = .ok (value, rest) := by
  have hdigit := bars_digit_of_bars_bound hrest
  simp only [bounds, AugmentedBnf.bind_eq_ok, Prod.exists]
  cases h with
  | count hnumber =>
    exact ⟨some _, rest, bound_eq_ok.mpr ⟨BoundDerives.present hnumber, hdigit⟩, none, rest,
      optional_eq_ok.mpr (Or.inr ⟨exactly_star_declines hrest, rfl, rfl⟩), rfl⟩
  | @between min max _ middle _ hmin hmax =>
    have hstar : Bars Octet.isDigit ('*'.toUInt8 :: middle) := bars_cons (by decide)
    refine ⟨min, _, bound_eq_ok.mpr ⟨hmin, hstar⟩, some (), middle,
      optional_eq_ok.mpr (Or.inl ⟨(), exactly_eq_ok.mpr rfl, rfl⟩), ?_⟩
    simp only [AugmentedBnf.bind_eq_ok, Prod.exists]
    exact ⟨max, rest, bound_eq_ok.mpr ⟨hmax, hdigit⟩, rfl⟩

lemma bounds_declines {input : List Octet} (h : Bars Octet.isBound input) :
    bounds.Declines input := by
  have hmin : optional (number .decimal) input = .ok (none, input) :=
    bound_eq_ok.mpr ⟨BoundDerives.absent input, bars_digit_of_bars_bound h⟩
  have hstar : optional (exactly .repeatStar '*') input = .ok (none, input) :=
    optional_eq_ok.mpr (Or.inr ⟨exactly_star_declines h, rfl, rfl⟩)
  refine ⟨⟨.repeatCount, input, false⟩, ?_, rfl⟩
  simp only [bounds, hmin, hstar, bind, Except.bind]

/-! ### Numeric values -/

lemma radix_eq_ok {input rest : List Octet} {value : Radix} :
    radix input = .ok (value, rest) ↔
      ∃ letter, input = letter :: rest ∧ letter.toLower = value.letter := by
  cases input with
  | nil => simp [radix]
  | cons first others =>
    have hfind : Radix.ofLetter? first = some value ↔ first.toLower = value.letter := by
      cases value <;> revert first <;> rw [Octet.forall_iff] <;> decide +kernel
    have hread : radix (first :: others) = .ok (value, rest) ↔
        Radix.ofLetter? first = some value ∧ others = rest := by
      simp only [radix]
      cases Radix.ofLetter? first <;> simp
    rw [hread, hfind]
    constructor
    · intro h
      obtain ⟨hletter, rfl⟩ := h
      exact ⟨first, rfl, hletter⟩
    · intro h
      obtain ⟨letter, heq, hletter⟩ := h
      cases heq
      exact ⟨hletter, rfl⟩

lemma dottedNumber_eq_ok {radix : Radix} {input rest : List Octet} {value : UInt32} :
    (do exactly .sequenceDot '.'; number radix : Reader UInt32) input = .ok (value, rest) ↔
      ∃ middle, input = '.'.toUInt8 :: middle ∧ radix.Derives value middle rest ∧
        Bars radix.isDigit rest := by
  simp only [bind_eq_ok, exactly_eq_ok, number_eq_ok]
  constructor
  · intro h
    obtain ⟨-, middle, rfl, hnumber⟩ := h
    exact ⟨middle, rfl, hnumber⟩
  · intro h
    obtain ⟨middle, rfl, hnumber⟩ := h
    exact ⟨(), middle, rfl, hnumber⟩

lemma shrinks_dottedNumber (radix : Radix) :
    (do exactly .sequenceDot '.'; number radix : Reader UInt32).Shrinks := by
  intro _ _ _ h
  obtain ⟨middle, rfl, hnumber, -⟩ := dottedNumber_eq_ok.mp h
  exact Nat.lt_succ_of_lt hnumber.length_lt

lemma derivesMembers_of_many {radix : Radix} {values : List UInt32} {input rest : List Octet}
    (h : many (do exactly .sequenceDot '.'; number radix) input = .ok (values, rest)) :
    radix.DerivesMembers values input rest := by
  refine many_induction (motive := fun input values => radix.DerivesMembers values input rest)
    (shrinks_dottedNumber radix) ?_ ?_ h
  · intro _
    exact Radix.DerivesMembers.nil rest
  · intro _ _ _ _ hvalue hmembers
    obtain ⟨middle, rfl, hnumber, -⟩ := dottedNumber_eq_ok.mp hvalue
    exact Radix.DerivesMembers.cons hnumber hmembers

lemma derives_of_numeric {input rest : List Octet} {value : Numeric}
    (h : numeric input = .ok (value, rest)) : value.Derives input rest := by
  simp only [numeric, bind_eq_ok, commit_eq_ok, exactly_eq_ok, radix_eq_ok, number_eq_ok] at h
  obtain ⟨-, _, rfl, radix, _, ⟨letter, rfl, hletter⟩, first, _, ⟨hfirst, -⟩, others, middle,
    hothers, h⟩ := h
  have hmembers := derivesMembers_of_many hothers
  split at h
  · cases h
    exact Numeric.Derives.sequence hletter hfirst hmembers
  · rename_i hnil
    rw [not_ne_iff.mp hnil] at hmembers
    cases hmembers
    simp only [bind_eq_ok, optional_eq_ok, exactly_eq_ok, number_eq_ok] at h
    obtain ⟨_, _, ⟨upper, ⟨-, _, rfl, hupper, -⟩, rfl⟩ | ⟨-, rfl, rfl⟩, h⟩ := h
    · cases h
      exact Numeric.Derives.range hletter hfirst hupper
    · cases h
      exact Numeric.Derives.sequence hletter hfirst (Radix.DerivesMembers.nil _)

lemma bars_digit_of_bars_continuation (radix : Radix) {rest : List Octet}
    (h : Bars Octet.isContinuation rest) : Bars radix.isDigit rest := by
  intro octet hoctet
  have htail := (Bool.or_eq_false_iff.mp (h octet hoctet)).1
  cases hdigit : radix.isDigit octet with
  | false => rfl
  | true => rw [Octet.isNameTail_of_isDigit hdigit] at htail; contradiction

lemma bars_digit_of_derivesMembers {radix : Radix} {values : List UInt32}
    {input rest : List Octet} (h : radix.DerivesMembers values input rest)
    (hrest : Bars Octet.isContinuation rest) : Bars radix.isDigit input := by
  cases h with
  | nil => exact bars_digit_of_bars_continuation radix hrest
  | cons => exact bars_cons (by cases radix <;> decide)

lemma many_dottedNumber_nil {radix : Radix} {input : List Octet}
    (h : Bars (· == '.'.toUInt8) input) :
    many (do exactly .sequenceDot '.'; number radix) input = .ok ([], input) :=
  (many_eq_ok (shrinks_dottedNumber radix)).mpr
    (Or.inr ⟨bind_declines.mpr (Or.inl (exactly_declines.mpr h)), rfl, rfl⟩)

lemma many_of_derivesMembers {radix : Radix} {values : List UInt32} {input rest : List Octet}
    (h : radix.DerivesMembers values input rest) (hrest : Bars Octet.isContinuation rest) :
    many (do exactly .sequenceDot '.'; number radix) input = .ok (values, rest) := by
  induction h with
  | nil rest =>
    exact many_dottedNumber_nil fun octet hoctet =>
      (Bool.or_eq_false_iff.mp (hrest octet hoctet)).2
  | cons hnumber hmembers ih =>
    refine (many_eq_ok (shrinks_dottedNumber radix)).mpr (Or.inl ⟨_, _, _, ?_, ih hrest, rfl⟩)
    exact dottedNumber_eq_ok.mpr
      ⟨_, rfl, hnumber, bars_digit_of_derivesMembers hmembers hrest⟩

lemma hyphen_declines {rest : List Octet} (h : Bars Octet.isContinuation rest) :
    (exactly .rangeHyphen '-').Declines rest := by
  refine exactly_declines.mpr fun octet hoctet => beq_eq_false_iff_ne.mpr fun heq => ?_
  have hcontinuation := h octet hoctet
  rw [heq] at hcontinuation
  revert hcontinuation
  decide

lemma numeric_of_derives {input rest : List Octet} {value : Numeric}
    (h : value.Derives input rest) (hrest : Bars Octet.isContinuation rest) :
    numeric input = .ok (value, rest) := by
  simp only [numeric, bind_eq_ok, commit_eq_ok, exactly_eq_ok, radix_eq_ok, number_eq_ok]
  cases h with
  | @sequence radix letter first others _ _ _ hletter hfirst hothers =>
    refine ⟨(), _, rfl, radix, _, ⟨letter, rfl, hletter⟩, first, _,
      ⟨hfirst, bars_digit_of_derivesMembers hothers hrest⟩, others, rest,
      many_of_derivesMembers hothers hrest, ?_⟩
    cases others with
    | cons => rfl
    | nil =>
      simp only [ne_eq, not_true, if_false, bind_eq_ok, optional_eq_ok]
      exact ⟨none, rest, Or.inr ⟨bind_declines.mpr (Or.inl (hyphen_declines hrest)), rfl, rfl⟩, rfl⟩
  | @range radix letter lower upper _ middle _ hletter hlower hupper =>
    have hhyphen : Bars radix.isDigit ('-'.toUInt8 :: middle) :=
      bars_cons (by cases radix <;> decide)
    refine ⟨(), _, rfl, radix, _, ⟨letter, rfl, hletter⟩, lower, _, ⟨hlower, hhyphen⟩, [], _,
      many_dottedNumber_nil (bars_cons (by decide)), ?_⟩
    simp only [ne_eq, not_true, if_false, bind_eq_ok, optional_eq_ok, exactly_eq_ok,
      number_eq_ok]
    exact ⟨some upper, rest, Or.inl ⟨upper, ⟨(), middle, rfl, hupper,
      bars_digit_of_bars_continuation radix hrest⟩, rfl⟩, rfl⟩

end Reader

end AugmentedBnf
