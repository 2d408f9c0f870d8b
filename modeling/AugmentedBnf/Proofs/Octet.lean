import Mathlib.Tactic.Lemma
import AugmentedBnf.Radix

/-!
# Classes of octets

The classes that tell where the parts of a rule go on, begin and end, and how they exclude each
other. There are few enough octets to go through all of them.
-/

namespace AugmentedBnf

namespace Octet

/-- What repeat bounds consist of. -/
def isBound (octet : Octet) : Bool := octet.isDigit || octet == '*'.toUInt8

/-- What a name or a numeric value might go on with. -/
def isContinuation (octet : Octet) : Bool := octet.isNameTail || octet == '.'.toUInt8

def opensBlank (octet : Octet) : Bool :=
  octet.isWhiteSpace || [';', '\r', '\n'].any (octet == ·.toUInt8)

def opensElement (octet : Octet) : Bool :=
  octet.isAlpha || ['(', '[', '"', '%', '<'].any (octet == ·.toUInt8)

def opensRepetition (octet : Octet) : Bool := octet.isBound || octet.opensElement

/-- What stands behind a concatenation, once the blanks are passed. -/
def closesConcatenation (octet : Octet) : Bool :=
  [')', ']', '/', ';', '\r', '\n'].any (octet == ·.toUInt8)

/-- What stands behind an alternation, once the blanks are passed. -/
def closesAlternation (octet : Octet) : Bool :=
  [')', ']', ';', '\r', '\n'].any (octet == ·.toUInt8)

lemma forall_iff {p : Octet → Prop} : (∀ octet, p octet) ↔ ∀ code : Fin 256, p ⟨⟨code⟩⟩ :=
  ⟨fun h code => h ⟨⟨code⟩⟩, fun h octet => h octet.toBitVec.toFin⟩

lemma isNameTail_of_isDigit {radix : Radix} {octet : Octet} (h : radix.isDigit octet) :
    octet.isNameTail := by
  revert octet
  rw [forall_iff]
  cases radix <;> decide +kernel

lemma not_isBound_of_opensElement {octet : Octet} (h : octet.opensElement) :
    octet.isBound = false := by
  revert octet
  rw [forall_iff]
  decide +kernel

lemma not_of_opensRepetition {octet : Octet} (h : octet.opensRepetition) :
    octet.opensBlank = false ∧ octet ≠ '/'.toUInt8 := by
  revert octet
  rw [forall_iff]
  decide +kernel

lemma not_of_opensBlank {octet : Octet} (h : octet.opensBlank) :
    octet.isContinuation = false ∧ octet.isAlpha = false ∧ octet ≠ '/'.toUInt8 := by
  revert octet
  rw [forall_iff]
  decide +kernel

lemma closesConcatenation_of_closesAlternation {octet : Octet} (h : octet.closesAlternation) :
    octet.closesConcatenation ∧ octet ≠ '/'.toUInt8 := by
  revert octet
  rw [forall_iff]
  decide +kernel

lemma not_of_closesConcatenation {octet : Octet} (h : octet.closesConcatenation) :
    octet.isContinuation = false ∧ octet.isBound = false ∧ octet.opensElement = false := by
  revert octet
  rw [forall_iff]
  decide +kernel

lemma lt_of_isNameTail {octet : Octet} (h : octet.isNameTail) : octet < 0x80 := by
  grind [isNameTail, isAlpha, isDigit]

lemma lt_of_isQuotable {octet : Octet} (h : octet.isQuotable) : octet < 0x80 := by
  grind [isQuotable]

lemma lt_of_isProse {octet : Octet} (h : octet.isProse) : octet < 0x80 := by
  grind [isProse]

end Octet

end AugmentedBnf
