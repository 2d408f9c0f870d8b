import AugmentedBnf.Octet

/-!
# Patterns

A pattern is a rule body without names, counts and ranges: these are spelled out, so that little is
left that an automaton has to be built for. Repetitions with bounds become as many copies as they
ask for.
-/

namespace AugmentedBnf

/-- A description of words. -/
inductive Pattern where
  /-- The empty word. -/
  | skip
  /-- The words of one octet, out of a list. -/
  | oneOf (octets : List Octet)
  /-- A word of the one followed by a word of the other. -/
  | seq (first second : Pattern)
  /-- A word of either. -/
  | union (first second : Pattern)
  /-- Any number of words. -/
  | star (body : Pattern)
  /-- Any number of words, and at least one. -/
  | plus (body : Pattern)
deriving DecidableEq, Repr

namespace Pattern

/-- One word, whose octets are each one of a list. -/
def classes : List (List Octet) → Pattern
  | [] => skip
  | [octets] => oneOf octets
  | octets :: rest => seq (oneOf octets) (classes rest)

def word (octets : List Octet) : Pattern := classes (octets.map ([·]))

/-- One word with its letters in either case. -/
def text (octets : List Octet) : Pattern :=
  classes (octets.map fun octet =>
    if octet.isAlpha then [octet.toLower, octet.toUpper] else [octet])

/-- One octet between two bounds, both included. -/
def range (lower upper : Octet) : Pattern :=
  oneOf ((List.range' lower.toNat (upper.toNat + 1 - lower.toNat)).map Nat.toUInt8)

/-- Copies of a pattern, and another one behind them. -/
def copies (count : Nat) (body last : Pattern) : Pattern := Nat.repeat (seq body) count last

/-- A number of copies, and at least one. -/
def exactly (count : Nat) (body : Pattern) : Pattern := copies (count - 1) body body

def atLeast (count : Nat) (body : Pattern) : Pattern :=
  if count = 0 then star body else copies (count - 1) body (plus body)

/-- No more than a number of copies, where one copy is always allowed. -/
def atMost (count : Nat) (body : Pattern) : Pattern :=
  Nat.repeat (fun rest => union skip (seq body rest)) (count - 1) (union skip body)

/-- A number of copies between bounds. A missing maximum sets no bound. -/
def repeated (min : Nat) (max : Option Nat) (body : Pattern) : Pattern :=
  match max with
  | none => atLeast min body
  | some max =>
    if min = 0 then atMost max body
    else if min = max then exactly max body
    else copies min body (atMost (max - min) body)

end Pattern

end AugmentedBnf
