import AugmentedBnf.Octet

/-!
# Radixes

Numeric values are written in binary, decimal or hexadecimal, and repeat counts in decimal. This
module reads and writes the numerals of a radix.
-/

namespace AugmentedBnf

inductive Radix where
  | binary
  | decimal
  | hexadecimal
deriving DecidableEq, Repr

namespace Radix

def base : Radix → Nat
  | binary => 2
  | decimal => 10
  | hexadecimal => 16

def letter : Radix → Octet
  | binary => 'b'.toUInt8
  | decimal => 'd'.toUInt8
  | hexadecimal => 'x'.toUInt8

def ofLetter? (octet : Octet) : Option Radix :=
  [binary, decimal, hexadecimal].find? (·.letter == octet.toLower)

/-- Whether an octet is a digit of a radix. Hexadecimal digits may be of either case. -/
def isDigit : Radix → Octet → Bool
  | binary, octet => octet == 0x30 || octet == 0x31
  | decimal, octet => octet.isDigit
  | hexadecimal, octet =>
    octet.isDigit || (0x61 ≤ octet.toLower && octet.toLower ≤ 0x66)

def digitValue (octet : Octet) : Nat :=
  if octet.isDigit then octet.toNat - 0x30 else octet.toLower.toNat - 0x57

/-- The value of a run of digits, the most significant one first. -/
def value (radix : Radix) (digits : List Octet) : Nat :=
  digits.foldl (fun number digit => number * radix.base + digitValue digit) 0

/-- The shortest numeral of a number, in capital letters. -/
def numeral (radix : Radix) (number : Nat) : String :=
  String.ofList ((Nat.toDigits radix.base number).map Char.toUpper)

end Radix

end AugmentedBnf
