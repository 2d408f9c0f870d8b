import AugmentedBnf.Octet

/-!
# UTF-8

Text is written as UTF-8. Reading octets back as text never fails: where they are not UTF-8, each
longest run of octets that begins a character but does not complete one is shown as one
replacement character, and so is each octet that begins none.
-/

namespace AugmentedBnf

namespace Utf8

def encode (text : String) : List Octet := text.toList.flatMap String.utf8EncodeChar

/-- The replacement character, which stands for octets that are no character. -/
def replacement : Char := Char.ofNat 0xFFFD

/-- A character of which some octets have been read. -/
structure Unfinished where
  /-- The bits read so far. -/
  bits : Nat
  /-- How many octets are still to come. -/
  missing : Nat
  /-- The least octet that may come next. -/
  least : Octet
  /-- The greatest octet that may come next. -/
  greatest : Octet
deriving DecidableEq

/-- A longer character after its first octet. The bounds on the second octet leave out overlong
forms, surrogates and codes above 0x10FFFF. -/
def Unfinished.ofLead? (octet : Octet) : Option Unfinished :=
  let bits := octet.toNat
  if octet < 0xC2 then none
  else if octet ≤ 0xDF then some ⟨bits - 0xC0, 1, 0x80, 0xBF⟩
  else if octet = 0xE0 then some ⟨bits - 0xE0, 2, 0xA0, 0xBF⟩
  else if octet = 0xED then some ⟨bits - 0xE0, 2, 0x80, 0x9F⟩
  else if octet ≤ 0xEF then some ⟨bits - 0xE0, 2, 0x80, 0xBF⟩
  else if octet = 0xF0 then some ⟨bits - 0xF0, 3, 0x90, 0xBF⟩
  else if octet ≤ 0xF3 then some ⟨bits - 0xF0, 3, 0x80, 0xBF⟩
  else if octet = 0xF4 then some ⟨bits - 0xF0, 3, 0x80, 0x8F⟩
  else none

/-- What an octet gives where a character may begin: the characters it settles, and the character
it leaves unfinished. -/
def lead (octet : Octet) : List Char × Option Unfinished :=
  if octet < 0x80 then ([octet.toChar], none)
  else match Unfinished.ofLead? octet with
    | some unfinished => ([], some unfinished)
    | none => ([replacement], none)

/-- What an octet gives after an unfinished character, if there is one. An octet that cannot
continue it leaves a replacement character behind and is read as the beginning of another. -/
def step : Option Unfinished → Octet → List Char × Option Unfinished
  | none, octet => lead octet
  | some unfinished, octet =>
    if unfinished.least ≤ octet ∧ octet ≤ unfinished.greatest then
      let bits := unfinished.bits * 64 + octet.toNat % 64
      if unfinished.missing ≤ 1 then ([Char.ofNat bits], none)
      else ([], some ⟨bits, unfinished.missing - 1, 0x80, 0xBF⟩)
    else
      let (chars, unfinished) := lead octet
      (replacement :: chars, unfinished)

/-- The characters that octets give after an unfinished character, if there is one. -/
def chars : Option Unfinished → List Octet → List Char
  | none, [] => []
  | some _, [] => [replacement]
  | unfinished, octet :: octets =>
    let (settled, unfinished) := step unfinished octet
    settled ++ chars unfinished octets

/-- The text of octets, with replacement characters where they are not UTF-8. -/
def decode (octets : List Octet) : String := String.ofList (chars none octets)

end Utf8

end AugmentedBnf
