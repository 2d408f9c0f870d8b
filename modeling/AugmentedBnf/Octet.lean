/-!
# Octets

A grammar document and the words of the language it describes are sequences of octets. This
module names the classes of octets that the notation distinguishes, and the two cases of an ASCII
letter.
-/

namespace AugmentedBnf

abbrev Octet := UInt8

namespace Octet

def isAlpha (octet : Octet) : Bool :=
  (0x41 ≤ octet && octet ≤ 0x5A) || (0x61 ≤ octet && octet ≤ 0x7A)

def isDigit (octet : Octet) : Bool := 0x30 ≤ octet && octet ≤ 0x39

/-- White space is a space or a horizontal tab. -/
def isWhiteSpace (octet : Octet) : Bool := octet == 0x20 || octet == 0x09

/-- The printing characters of ASCII, the space left out. -/
def isVisible (octet : Octet) : Bool := 0x21 ≤ octet && octet ≤ 0x7E

/-- What may follow the first letter of a rule name. -/
def isNameTail (octet : Octet) : Bool := octet.isAlpha || octet.isDigit || octet == 0x2D

/-- What may stand between the quotation marks of a literal: printing characters and spaces, but
no quotation mark. -/
def isQuotable (octet : Octet) : Bool := 0x20 ≤ octet && octet ≤ 0x7E && octet != 0x22

/-- What may stand between the angle brackets of a prose description: printing characters and
spaces, but no closing bracket. -/
def isProse (octet : Octet) : Bool := 0x20 ≤ octet && octet ≤ 0x7E && octet != 0x3E

/-- A capital letter becomes a small one; any other octet stays. -/
def toLower (octet : Octet) : Octet :=
  if 0x41 ≤ octet && octet ≤ 0x5A then octet + 0x20 else octet

/-- A small letter becomes a capital one; any other octet stays. -/
def toUpper (octet : Octet) : Octet :=
  if 0x61 ≤ octet && octet ≤ 0x7A then octet - 0x20 else octet

def toChar (octet : Octet) : Char := Char.ofNat octet.toNat

/-- The two capital hexadecimal digits of an octet. -/
def hexPair (octet : Octet) : String :=
  String.ofList [digit (octet.toNat / 16), digit (octet.toNat % 16)]
where
  digit (value : Nat) : Char := (Nat.digitChar value).toUpper

end Octet

end AugmentedBnf
