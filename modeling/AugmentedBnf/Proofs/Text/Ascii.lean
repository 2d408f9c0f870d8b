import Mathlib.Order.Nat
import AugmentedBnf.Proofs.Octet
import AugmentedBnf.Proofs.Reader.Derivation
import AugmentedBnf.Text.Utf8

/-!
# ASCII text

Whatever a grammar is written with is ASCII, and there characters and octets are the same: text is
encoded and octets are decoded one by one.
-/

namespace AugmentedBnf

namespace Utf8

lemma encode_append (first second : String) :
    encode (first ++ second) = encode first ++ encode second := by
  simp only [encode, String.toList_append, List.flatMap_append]

lemma encode_ofList (chars : List Char) :
    encode (String.ofList chars) = chars.flatMap String.utf8EncodeChar := by
  simp only [encode, String.toList_ofList]

lemma encode_ofOctets {octets : List Octet} (h : ∀ octet ∈ octets, octet < 0x80) :
    encode (String.ofList (octets.map Octet.toChar)) = octets := by
  have hoctet : ∀ octet : Octet, octet < 0x80 → String.utf8EncodeChar octet.toChar = [octet] := by
    rw [Octet.forall_iff]
    decide +kernel
  rw [encode_ofList]
  induction octets with
  | nil => rfl
  | cons octet octets ih =>
    rw [List.map_cons, List.flatMap_cons, hoctet octet (h octet List.mem_cons_self),
      ih fun other hother => h other (List.mem_cons_of_mem octet hother)]
    rfl

lemma chars_ascii {octets : List Octet} (h : ∀ octet ∈ octets, octet < 0x80) :
    chars none octets = octets.map Octet.toChar := by
  induction octets with
  | nil => rfl
  | cons octet octets ih =>
    have hoctet := h octet List.mem_cons_self
    simp only [chars, step, lead, hoctet, if_true, List.map_cons, List.singleton_append,
      ih fun other hother => h other (List.mem_cons_of_mem octet hother)]

lemma encode_decode {octets : List Octet} (h : ∀ octet ∈ octets, octet < 0x80) :
    encode (decode octets) = octets := by
  rw [decode, chars_ascii h, encode_ofOctets h]

end Utf8

lemma Octet.exists_toChar {char : Char} (h : char.toNat < 0x80) :
    ∃ octet : Octet, octet < 0x80 ∧ octet.toChar = char := by
  have hsize : char.toNat < UInt8.size := h.trans (by decide)
  refine ⟨UInt8.ofNat char.toNat, ?_, ?_⟩
  · rw [UInt8.lt_iff_toNat_lt, UInt8.toNat_ofNat_of_lt' hsize]
    exact h
  · rw [Octet.toChar, UInt8.toNat_ofNat_of_lt' hsize]
    exact Char.ofNat_toNat char

lemma Octet.exists_map_toChar {chars : List Char} (h : ∀ char ∈ chars, char.toNat < 0x80) :
    ∃ octets : List Octet, (∀ octet ∈ octets, octet < 0x80) ∧ octets.map Octet.toChar = chars := by
  induction chars with
  | nil => exact ⟨[], by simp, rfl⟩
  | cons char chars ih =>
    obtain ⟨octet, hoctet, rfl⟩ := Octet.exists_toChar (h char List.mem_cons_self)
    obtain ⟨octets, hoctets, rfl⟩ := ih fun other hother => h other (List.mem_cons_of_mem _ hother)
    exact ⟨octet :: octets, List.forall_mem_cons.mpr ⟨hoctet, hoctets⟩, rfl⟩

/-! ### Numerals -/

namespace Radix

def digitOctet (value : Nat) : Octet := (Nat.digitChar value).toUpper.toUInt8

lemma digitOctet_spec (radix : Radix) : ∀ value < radix.base,
    String.utf8EncodeChar (Nat.digitChar value).toUpper = [digitOctet value] ∧
      radix.isDigit (digitOctet value) ∧ digitValue (digitOctet value) = value := by
  cases radix <;> decide

lemma value_append_digit (radix : Radix) (digits : List Octet) (digit : Octet) :
    radix.value (digits ++ [digit]) = radix.value digits * radix.base + digitValue digit := by
  simp only [value, List.foldl_append, List.foldl_cons, List.foldl_nil]

lemma one_lt_base (radix : Radix) : 1 < radix.base := by
  cases radix <;> decide

/-- The digits of a numeral, and the number that they are read as. -/
lemma exists_digits (radix : Radix) (number : Nat) :
    ∃ digits, Utf8.encode (radix.numeral number) = digits ∧ digits ≠ [] ∧
      (∀ digit ∈ digits, radix.isDigit digit) ∧ radix.value digits = number := by
  simp only [numeral, Utf8.encode_ofList]
  induction number using Nat.strong_induction_on with
  | _ number ih =>
    by_cases hsmall : number < radix.base
    · obtain ⟨hencode, hdigit, hvalue⟩ := radix.digitOctet_spec number hsmall
      refine ⟨[digitOctet number], ?_, List.cons_ne_nil _ _, ?_, ?_⟩
      · rw [Nat.toDigits_of_lt_base hsmall]
        simp only [List.map_cons, List.map_nil, List.flatMap_cons, List.flatMap_nil, hencode,
          List.append_nil]
      · intro digit hmem
        rw [List.mem_singleton.mp hmem]
        exact hdigit
      · simp only [value, List.foldl_cons, List.foldl_nil, hvalue, Nat.zero_mul, Nat.zero_add]
    · rw [not_lt] at hsmall
      have hbase := radix.one_lt_base
      obtain ⟨digits, hdigits, -, hall, hnumber⟩ := ih (number / radix.base)
        (Nat.div_lt_self (by omega) hbase)
      obtain ⟨hencode, hdigit, hvalue⟩ := radix.digitOctet_spec (number % radix.base)
        (Nat.mod_lt _ (by omega))
      refine ⟨digits ++ [digitOctet (number % radix.base)], ?_, by simp, ?_, ?_⟩
      · rw [Nat.toDigits_of_base_le hbase hsmall, List.map_append, List.flatMap_append, hdigits]
        simp only [List.map_cons, List.map_nil, List.flatMap_cons, List.flatMap_nil, hencode,
          List.append_nil]
      · intro digit hmem
        rw [List.mem_append, List.mem_singleton] at hmem
        obtain hmem | rfl := hmem
        · exact hall digit hmem
        · exact hdigit
      · rw [value_append_digit, hnumber, hvalue]
        exact Nat.div_add_mod' number radix.base

/-- A numeral is read as the number that it is written for. -/
lemma derives_numeral (radix : Radix) (number : UInt32) (rest : List Octet) :
    radix.Derives number (Utf8.encode (radix.numeral number.toNat) ++ rest) rest := by
  obtain ⟨digits, hencode, hne, hdigits, hvalue⟩ := radix.exists_digits number.toNat
  rw [hencode]
  have hnumber : number = .ofNat (radix.value digits) := by rw [hvalue, UInt32.ofNat_toNat]
  rw [hnumber]
  exact Radix.Derives.intro rest hne hdigits (hvalue ▸ number.toNat_lt)

end Radix

end AugmentedBnf
