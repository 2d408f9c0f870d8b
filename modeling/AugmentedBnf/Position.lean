import AugmentedBnf.Octet

/-!
# Positions

A place in a document, as a line and a column for its reader. Lines end at a line feed, columns
count octets, and both are counted from one.
-/

namespace AugmentedBnf

/-- A line and a column, both counted from one. -/
structure Position where
  line : Nat
  column : Nat
deriving DecidableEq, Repr

namespace Position

def lineFeed : Octet := 0x0A

def behind (octets : List Octet) : Position where
  line := octets.count lineFeed + 1
  column := (octets.reverse.takeWhile (· != lineFeed)).length + 1

/-- The position of an offset in a document. An offset past the end counts as the end. -/
def locate (document : List Octet) (offset : Nat) : Position := behind (document.take offset)

def render (position : Position) : String :=
  "line " ++ toString position.line ++ ", column " ++ toString position.column

end Position

end AugmentedBnf
