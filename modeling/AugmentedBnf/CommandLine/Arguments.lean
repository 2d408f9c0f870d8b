import AugmentedBnf.Expansion

/-!
# Arguments

The command takes the path of a grammar and options. An option is a word behind two hyphens, and
some are letters behind one hyphen, several of which may stand together. A value stands behind its
option, in the same argument or in the next one. Behind `--` there are no options.
-/

namespace AugmentedBnf

namespace CommandLine

/-- An option with a value. -/
inductive Setting where
  | root
  | repeatLimit
deriving DecidableEq, Repr

/-- What the arguments so far ask for. -/
structure Draft where
  paths : List String := []
  root : Option String := none
  repeatLimit : Option String := none
  inclusiveRanges : Bool := false
  exactCounts : Bool := false
deriving DecidableEq, Repr

namespace Draft

/-- A draft with the value of an option, which may have one value only. -/
def set? (draft : Draft) (value : String) : Setting → Option Draft
  | .root => if draft.root.isSome then none else some { draft with root := some value }
  | .repeatLimit =>
    if draft.repeatLimit.isSome then none else some { draft with repeatLimit := some value }

/-- A draft with letters behind a hyphen, and the option that waits for its value, if one does. The
value of a letter is what stands behind it, without an equals sign in front. -/
def letters? (draft : Draft) : List Char → Option (Draft × Option Setting)
  | [] => some (draft, none)
  | 'v' :: rest => draft.letters? rest
  | ['r'] => some (draft, some .root)
  | 'r' :: '=' :: value | 'r' :: value =>
    (draft.set? (String.ofList value) .root).map (·, none)
  | _ => none

/-- A draft with a word behind two hyphens, and the option that waits for its value, if one does.
The value of a word is what stands behind the first equals sign. -/
def word? (draft : Draft) (argument : List Char) : Option (Draft × Option Setting) :=
  let name := String.ofList (argument.takeWhile (· != '='))
  match name, argument.dropWhile (· != '=') with
  | "root", [] => some (draft, some .root)
  | "repeat-limit", [] => some (draft, some .repeatLimit)
  | "root", _ :: value => (draft.set? (String.ofList value) .root).map (·, none)
  | "repeat-limit", _ :: value => (draft.set? (String.ofList value) .repeatLimit).map (·, none)
  | "inclusive-ranges", [] =>
    if draft.inclusiveRanges then none else some ({ draft with inclusiveRanges := true }, none)
  | "exact-counts", [] =>
    if draft.exactCounts then none else some ({ draft with exactCounts := true }, none)
  | "verbose", [] => some (draft, none)
  | _, _ => none

/-- A draft with arguments, where an option may wait for its value. A lone hyphen is a value, but
nothing else that begins with one is. -/
def gather? (draft : Draft) : Option Setting → List String → Option Draft
  | none, [] => some draft
  | some _, [] => none
  | waiting, argument :: rest =>
    match argument.toList, waiting with
    | ['-', '-'], none => some { draft with paths := draft.paths ++ rest }
    | '-' :: '-' :: word, none =>
      match draft.word? word with
      | some (draft, waiting) => draft.gather? waiting rest
      | none => none
    | '-' :: letter :: letters, none =>
      match draft.letters? (letter :: letters) with
      | some (draft, waiting) => draft.gather? waiting rest
      | none => none
    | '-' :: _ :: _, some _ => none
    | _, none => { draft with paths := draft.paths ++ [argument] }.gather? none rest
    | _, some setting =>
      match draft.set? argument setting with
      | some draft => draft.gather? none rest
      | none => none

end Draft

/-- What the command is to do. -/
structure Invocation where
  /-- Where the grammar is. -/
  path : String
  /-- The rule to compile, if there is one. -/
  root : Option String
  options : Options
deriving DecidableEq, Repr

/-- A number of copies: digits, perhaps behind a sign, with a value of 32 bits. -/
def limit? (text : String) : Option UInt32 :=
  let (negative, digits) := match text.toList with
    | '-' :: digits => (true, digits)
    | '+' :: digits => (false, digits)
    | digits => (false, digits)
  if digits.isEmpty || digits.any (!·.isDigit) then none
  else
    let value := Radix.decimal.value (digits.map Char.toUInt8)
    if value < UInt32.size && (!negative || value == 0) then some (UInt32.ofNat value) else none

/-- What a draft asks for, if it has one path, and a value that can be read for each option. -/
def Draft.invocation? (draft : Draft) : Option Invocation := do
  let [path] := draft.paths | none
  if path.isEmpty then none
  let repeatLimit ← match draft.repeatLimit with
    | some text => limit? text
    | none => some defaultRepeatLimit
  return {
    path
    root := draft.root
    options := {
      rangeMode := if draft.inclusiveRanges then .inclusive else .sequence
      countMode := if draft.exactCounts then .exact else .atLeast
      repeatLimit } }

/-- What arguments ask for, if the command understands them. -/
def Invocation.ofArguments? (arguments : List String) : Option Invocation := do
  let draft ← Draft.gather? {} none arguments
  draft.invocation?

end CommandLine

end AugmentedBnf
