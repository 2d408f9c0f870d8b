import Mathlib.Computability.Language
import Mathlib.Order.CompletePartialOrder
import AugmentedBnf.Pattern

/-!
# Languages of patterns

The words that a pattern describes, and those of the patterns that texts, ranges and repetitions
become. Languages form a Kleene algebra, in which copies are powers.
-/

namespace AugmentedBnf

open Computability

/-- An octet has the same small form as a letter exactly if it is one of both its forms. -/
lemma Octet.toLower_eq_toLower_of_isAlpha {letter octet : Octet} (h : letter.isAlpha) :
    octet.toLower = letter.toLower ↔ octet = letter.toLower ∨ octet = letter.toUpper := by
  simp only [isAlpha, toLower, toUpper, Bool.or_eq_true, Bool.and_eq_true, decide_eq_true_eq,
    UInt8.le_iff_toNat_le, ← UInt8.toNat_inj] at h ⊢
  split_ifs <;> grind [UInt8.toNat_add, UInt8.toNat_sub]

/-- An octet that is no letter is the only one with its small form. -/
lemma Octet.toLower_eq_toLower_of_not_isAlpha {other octet : Octet} (h : ¬ other.isAlpha) :
    octet.toLower = other.toLower ↔ octet = other := by
  simp only [isAlpha, toLower, Bool.or_eq_true, Bool.and_eq_true, decide_eq_true_eq,
    UInt8.le_iff_toNat_le, ← UInt8.toNat_inj] at h ⊢
  split_ifs <;> grind [UInt8.toNat_add, UInt8.toNat_sub]

namespace Pattern

def language : Pattern → Language Octet
  | skip => 1
  | oneOf octets => {word | ∃ octet ∈ octets, word = [octet]}
  | seq first second => first.language * second.language
  | union first second => first.language + second.language
  | star body => body.language∗
  | plus body => body.language * body.language∗

lemma mem_language_skip {word : List Octet} : word ∈ skip.language ↔ word = [] := Iff.rfl

lemma mem_language_oneOf {octets word : List Octet} :
    word ∈ (oneOf octets).language ↔ ∃ octet ∈ octets, word = [octet] := Iff.rfl

/-- Classes describe the words with an octet of each class, one after the other. -/
lemma mem_language_classes {octetss : List (List Octet)} {word : List Octet} :
    word ∈ (classes octetss).language ↔ List.Forall₂ (· ∈ ·) word octetss := by
  induction octetss generalizing word with
  | nil => simp [classes, mem_language_skip]
  | cons octets rest ih =>
    have hseq : word ∈ (seq (oneOf octets) (classes rest)).language ↔
        List.Forall₂ (· ∈ ·) word (octets :: rest) := by
      rw [List.forall₂_cons_right_iff, language, Language.mem_mul]
      constructor
      · rintro ⟨first, ⟨octet, hoctet, rfl⟩, tail, htail, rfl⟩
        exact ⟨octet, tail, hoctet, ih.mp htail, rfl⟩
      · rintro ⟨octet, tail, hoctet, htail, rfl⟩
        exact ⟨[octet], ⟨octet, hoctet, rfl⟩, tail, ih.mpr htail, rfl⟩
    cases rest with
    | nil =>
      rw [← hseq]
      change _ ↔ word ∈ (oneOf octets).language * 1
      rw [mul_one, classes]
    | cons next rest => exact hseq

/-- A word describes itself only. -/
lemma mem_language_word {octets word : List Octet} :
    word ∈ (Pattern.word octets).language ↔ word = octets := by
  rw [Pattern.word, mem_language_classes, List.forall₂_map_right_iff]
  simp [List.forall₂_eq_eq_eq]

/-- A text describes the words that differ from it in letter case only. -/
lemma mem_language_text {octets word : List Octet} :
    word ∈ (text octets).language ↔ word.map Octet.toLower = octets.map Octet.toLower := by
  have hoctet : ∀ a b : Octet,
      (a ∈ if b.isAlpha then [b.toLower, b.toUpper] else [b]) ↔ a.toLower = b.toLower := by
    intro a b
    split_ifs with hb
    · simp [Octet.toLower_eq_toLower_of_isAlpha hb]
    · simp [Octet.toLower_eq_toLower_of_not_isAlpha hb]
  rw [text, mem_language_classes, List.forall₂_map_right_iff]
  simp only [hoctet]
  rw [← List.forall₂_eq_eq_eq, List.forall₂_map_left_iff, List.forall₂_map_right_iff]

/-- A range describes the octets between its bounds. -/
lemma mem_language_range {lower upper : Octet} {word : List Octet} :
    word ∈ (range lower upper).language ↔
      ∃ octet, word = [octet] ∧ lower ≤ octet ∧ octet ≤ upper := by
  simp only [range, mem_language_oneOf, List.mem_map, List.mem_range'_1]
  constructor
  · rintro ⟨octet, ⟨n, hn, rfl⟩, rfl⟩
    have hupper := upper.toNat_lt
    have hmod : n % 2 ^ 8 = n := Nat.mod_eq_of_lt (by omega)
    refine ⟨_, rfl, ?_, ?_⟩ <;> rw [UInt8.le_iff_toNat_le, Nat.toUInt8_eq, UInt8.toNat_ofNat', hmod]
      <;> omega
  · rintro ⟨octet, rfl, hlower, hupper⟩
    rw [UInt8.le_iff_toNat_le] at hlower hupper
    exact ⟨octet, ⟨octet.toNat, by omega, by simp⟩, rfl⟩

/-! ### Repetitions -/

lemma language_copies (count : Nat) (body last : Pattern) :
    (copies count body last).language = body.language ^ count * last.language := by
  induction count with
  | zero => simp [copies, Nat.repeat]
  | succ count ih =>
    change body.language * (copies count body last).language = _
    rw [ih, pow_succ', mul_assoc]

lemma language_exactly {count : Nat} (hcount : 0 < count) (body : Pattern) :
    (exactly count body).language = body.language ^ count := by
  rw [exactly, language_copies, ← pow_succ, Nat.sub_one_add_one hcount.ne']

lemma language_atLeast (count : Nat) (body : Pattern) :
    (atLeast count body).language = body.language ^ count * body.language∗ := by
  unfold atLeast
  split_ifs with hcount
  · simp [hcount, language]
  · rw [language_copies, language, ← mul_assoc, ← pow_succ, Nat.sub_one_add_one hcount]

/-- Optional copies, each of which needs the one before it. -/
lemma mem_language_optional {count : Nat} {body : Pattern} {word : List Octet} :
    word ∈ (Nat.repeat (fun rest => union skip (seq body rest)) count (union skip body)).language ↔
      ∃ n ≤ count + 1, word ∈ body.language ^ n := by
  induction count generalizing word with
  | zero =>
    change word = [] ∨ word ∈ body.language ↔ _
    constructor
    · rintro (rfl | hword)
      · exact ⟨0, by omega, rfl⟩
      · exact ⟨1, by omega, by rwa [pow_one]⟩
    · rintro ⟨n, hn, hword⟩
      obtain rfl | rfl : n = 0 ∨ n = 1 := by omega
      · exact .inl hword
      · exact .inr (by rwa [pow_one] at hword)
  | succ count ih =>
    change word = [] ∨ word ∈ body.language * _ ↔ _
    rw [Language.mem_mul]
    simp only [ih]
    constructor
    · rintro (rfl | ⟨first, hfirst, rest, ⟨n, hn, hrest⟩, rfl⟩)
      · exact ⟨0, by omega, rfl⟩
      · refine ⟨n + 1, by omega, ?_⟩
        rw [pow_succ']
        exact Language.append_mem_mul hfirst hrest
    · rintro ⟨n, hn, hword⟩
      cases n with
      | zero => exact .inl hword
      | succ n =>
        rw [pow_succ'] at hword
        obtain ⟨first, hfirst, rest, hrest, rfl⟩ := hword
        exact .inr ⟨first, hfirst, rest, ⟨n, by omega, hrest⟩, rfl⟩

lemma mem_language_atMost {count : Nat} {body : Pattern} {word : List Octet} :
    word ∈ (atMost count body).language ↔ ∃ n ≤ max count 1, word ∈ body.language ^ n := by
  rw [atMost, mem_language_optional, show count - 1 + 1 = max count 1 by omega]

/-- A number of words of a language or more, one after the other. -/
lemma mem_pow_mul_kstar {count : Nat} {l : Language Octet} {word : List Octet} :
    word ∈ l ^ count * l∗ ↔ ∃ n, count ≤ n ∧ word ∈ l ^ n := by
  simp only [Language.kstar_eq_iSup_pow, Language.mul_iSup, Language.mem_iSup, ← pow_add]
  constructor
  · rintro ⟨more, hword⟩
    exact ⟨count + more, by omega, hword⟩
  · rintro ⟨n, hn, hword⟩
    exact ⟨n - count, by rwa [Nat.add_sub_cancel' hn]⟩

/-- A repetition describes as many words of its body as its bounds allow. A maximum of zero allows
for one. -/
lemma mem_language_repeated {min : Nat} {max? : Option Nat} {body : Pattern} {word : List Octet}
    (hbounds : ∀ max ∈ max?, min ≤ max) :
    word ∈ (repeated min max? body).language ↔
      ∃ n, min ≤ n ∧ (∀ max ∈ max?, n ≤ Nat.max max 1) ∧ word ∈ body.language ^ n := by
  cases max? with
  | none => simp [repeated, language_atLeast, mem_pow_mul_kstar]
  | some max =>
    have hle : min ≤ max := hbounds max rfl
    simp only [repeated, Option.mem_some_iff, forall_eq']
    split_ifs with hzero heq
    · simp [mem_language_atMost, hzero]
    · subst heq
      rw [language_exactly (by omega)]
      constructor
      · intro hword
        exact ⟨min, le_rfl, by simp, hword⟩
      · rintro ⟨n, hmin, hmax, hword⟩
        obtain rfl : n = min := by grind
        exact hword
    · rw [language_copies, Language.mem_mul]
      simp only [mem_language_atMost]
      constructor
      · rintro ⟨first, hfirst, rest, ⟨n, hn, hrest⟩, rfl⟩
        refine ⟨min + n, by omega, by grind, ?_⟩
        rw [pow_add]
        exact Language.append_mem_mul hfirst hrest
      · rintro ⟨n, hmin, hmax, hword⟩
        obtain ⟨more, rfl⟩ := Nat.exists_eq_add_of_le hmin
        rw [pow_add] at hword
        obtain ⟨first, hfirst, rest, hrest, rfl⟩ := hword
        exact ⟨first, hfirst, rest, ⟨more, by grind, hrest⟩, rfl⟩

end Pattern

end AugmentedBnf
