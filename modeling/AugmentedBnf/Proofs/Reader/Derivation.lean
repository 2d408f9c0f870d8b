import Mathlib.Logic.Relation
import Mathlib.Tactic.Lemma
import AugmentedBnf.Grammar.Merge

/-!
# Derivations

The productions of the notation, apart from how they are read. Each of them relates an input to
what is left of it behind the octets that the production derives, and to the value that these
octets write. Several derivations may share a production and an input: white space can belong to
an element, to the end of a rule or to the line behind it.
-/

namespace AugmentedBnf

/-- CRLF = CR LF, or a bare LF. -/
inductive LineBreak : List Octet → List Octet → Prop where
  | returnAndFeed (rest) : LineBreak ('\r'.toUInt8 :: '\n'.toUInt8 :: rest) rest
  | feed (rest) : LineBreak ('\n'.toUInt8 :: rest) rest

/-- What the text of a comment consists of: WSP / VCHAR. -/
def Octet.isComment (octet : Octet) : Bool := octet.isWhiteSpace || octet.isVisible

/-- c-nl = comment / CRLF, with comment = ";" *(WSP / VCHAR) CRLF. The last comment of a document
may end with it. -/
inductive LineEnd : List Octet → List Octet → Prop where
  | lineBreak {input rest} (hbreak : LineBreak input rest) : LineEnd input rest
  | comment {text middle rest} (htext : ∀ octet ∈ text, octet.isComment)
      (hbreak : LineBreak middle rest) : LineEnd (';'.toUInt8 :: (text ++ middle)) rest
  | lastComment {text} (htext : ∀ octet ∈ text, octet.isComment) :
      LineEnd (';'.toUInt8 :: text) []

/-- c-wsp = WSP / (c-nl WSP) -/
inductive Blank : List Octet → List Octet → Prop where
  | whiteSpace {octet} (rest) (hspace : octet.isWhiteSpace) : Blank (octet :: rest) rest
  | indentedLine {input octet rest} (hend : LineEnd input (octet :: rest))
      (hspace : octet.isWhiteSpace) : Blank input rest

/-- *c-wsp -/
def Blanks : List Octet → List Octet → Prop := Relation.ReflTransGen Blank

/-- 1*c-wsp -/
def SomeBlanks : List Octet → List Octet → Prop := Relation.TransGen Blank

lemma LineEnd.head {input rest : List Octet} (h : LineEnd input rest) :
    ∃ first others, input = first :: others ∧
      (first = ';'.toUInt8 ∨ first = '\r'.toUInt8 ∨ first = '\n'.toUInt8) := by
  cases h with
  | comment => exact ⟨_, _, rfl, Or.inl rfl⟩
  | lastComment => exact ⟨_, _, rfl, Or.inl rfl⟩
  | lineBreak hbreak =>
    cases hbreak with
    | returnAndFeed => exact ⟨_, _, rfl, Or.inr (Or.inl rfl)⟩
    | feed => exact ⟨_, _, rfl, Or.inr (Or.inr rfl)⟩

lemma LineBreak.length_lt {input rest : List Octet} (h : LineBreak input rest) :
    rest.length < input.length := by
  cases h with
  | returnAndFeed => simp only [List.length_cons]; omega
  | feed => simp

lemma LineEnd.length_lt {input rest : List Octet} (h : LineEnd input rest) :
    rest.length < input.length := by
  cases h with
  | lineBreak hbreak => exact hbreak.length_lt
  | comment _ hbreak =>
    have hlength := hbreak.length_lt
    simp only [List.length_cons, List.length_append]
    omega
  | lastComment => simp

lemma Blank.length_lt {input rest : List Octet} (h : Blank input rest) :
    rest.length < input.length := by
  cases h with
  | whiteSpace => simp
  | indentedLine hend =>
    have hlength := hend.length_lt
    simp only [List.length_cons] at hlength
    omega

lemma Blanks.length_le {input rest : List Octet} (h : Blanks input rest) :
    rest.length ≤ input.length := by
  induction h with
  | refl => exact Nat.le_refl _
  | tail _ hblank ih => exact Nat.le_trans (Nat.le_of_lt hblank.length_lt) ih

lemma SomeBlanks.length_lt {input rest : List Octet} (h : SomeBlanks input rest) :
    rest.length < input.length := by
  induction h with
  | single hblank => exact hblank.length_lt
  | tail _ hblank ih => exact Nat.lt_trans hblank.length_lt ih

/-- rulename = ALPHA *(ALPHA / DIGIT / "-") -/
inductive NameDerives : String → List Octet → List Octet → Prop where
  | intro {first tail} (rest) (hfirst : first.isAlpha) (htail : ∀ octet ∈ tail, octet.isNameTail) :
      NameDerives (String.ofList ((first :: tail).map Octet.toChar)) (first :: (tail ++ rest)) rest

/-- 1*BIT, 1*DIGIT or 1*HEXDIG, with a value below 2 ^ 32. -/
inductive Radix.Derives (radix : Radix) : UInt32 → List Octet → List Octet → Prop where
  | intro {digits} (rest) (hne : digits ≠ []) (hdigits : ∀ digit ∈ digits, radix.isDigit digit)
      (hvalue : radix.value digits < UInt32.size) :
      Radix.Derives radix (.ofNat (radix.value digits)) (digits ++ rest) rest

/-- *DIGIT -/
inductive BoundDerives : Option UInt32 → List Octet → List Octet → Prop where
  | absent (rest) : BoundDerives none rest rest
  | present {number input rest} (hnumber : Radix.decimal.Derives number input rest) :
      BoundDerives (some number) input rest

/-- repeat = 1*DIGIT / (*DIGIT "*" *DIGIT) -/
inductive Repeat.Derives : Repeat → List Octet → List Octet → Prop where
  | count {number input rest} (hnumber : Radix.decimal.Derives number input rest) :
      Repeat.Derives (.count number) input rest
  | between {min max input middle rest} (hmin : BoundDerives min input ('*'.toUInt8 :: middle))
      (hmax : BoundDerives max middle rest) : Repeat.Derives (.between (min.getD 0) max) input rest

/-- *("." 1*BIT) and so on. -/
inductive Radix.DerivesMembers (radix : Radix) : List UInt32 → List Octet → List Octet → Prop where
  | nil (rest) : Radix.DerivesMembers radix [] rest rest
  | cons {number numbers input middle rest} (hnumber : radix.Derives number input middle)
      (hmembers : Radix.DerivesMembers radix numbers middle rest) :
      Radix.DerivesMembers radix (number :: numbers) ('.'.toUInt8 :: input) rest

/-- num-val = "%" (bin-val / dec-val / hex-val), where
bin-val = "b" 1*BIT [ 1*("." 1*BIT) / ("-" 1*BIT) ] and so on. -/
inductive Numeric.Derives : Numeric → List Octet → List Octet → Prop where
  | sequence {radix : Radix} {letter first others input middle rest}
      (hletter : letter.toLower = radix.letter)
      (hfirst : radix.Derives first input middle)
      (hothers : radix.DerivesMembers others middle rest) :
      Numeric.Derives ⟨radix, false, first :: others⟩ ('%'.toUInt8 :: letter :: input) rest
  | range {radix : Radix} {letter lower upper input middle rest}
      (hletter : letter.toLower = radix.letter)
      (hlower : radix.Derives lower input ('-'.toUInt8 :: middle))
      (hupper : radix.Derives upper middle rest) :
      Numeric.Derives ⟨radix, true, [lower, upper]⟩ ('%'.toUInt8 :: letter :: input) rest

lemma NameDerives.length_lt {name : String} {input rest : List Octet}
    (h : NameDerives name input rest) : rest.length < input.length := by
  cases h
  simp only [List.length_cons, List.length_append]
  omega

lemma Radix.Derives.length_lt {radix : Radix} {number : UInt32} {input rest : List Octet}
    (h : radix.Derives number input rest) : rest.length < input.length := by
  cases h with
  | intro _ hne =>
    have hlength := List.length_pos_iff.mpr hne
    simp only [List.length_append]
    omega

lemma BoundDerives.length_le {bound : Option UInt32} {input rest : List Octet}
    (h : BoundDerives bound input rest) : rest.length ≤ input.length := by
  cases h with
  | absent => exact Nat.le_refl _
  | present hnumber => exact Nat.le_of_lt hnumber.length_lt

lemma Repeat.Derives.length_lt {bounds : Repeat} {input rest : List Octet}
    (h : bounds.Derives input rest) : rest.length < input.length := by
  cases h with
  | count hnumber => exact hnumber.length_lt
  | between hmin hmax =>
    have hmin := hmin.length_le
    have hmax := hmax.length_le
    simp only [List.length_cons] at hmin
    omega

lemma Radix.DerivesMembers.length_le {radix : Radix} {numbers : List UInt32}
    {input rest : List Octet} (h : radix.DerivesMembers numbers input rest) :
    rest.length ≤ input.length := by
  induction h with
  | nil => exact Nat.le_refl _
  | cons hnumber _ ih =>
    have hnumber := hnumber.length_lt
    simp only [List.length_cons]
    omega

lemma Numeric.Derives.length_lt {value : Numeric} {input rest : List Octet}
    (h : value.Derives input rest) : rest.length < input.length := by
  cases h with
  | sequence _ hfirst hothers =>
    have hfirst := hfirst.length_lt
    have hothers := hothers.length_le
    simp only [List.length_cons]
    omega
  | range _ hlower hupper =>
    have hlower := hlower.length_lt
    have hupper := hupper.length_lt
    simp only [List.length_cons] at hlower ⊢
    omega

/-! ### Rule bodies -/

mutual

/-- element = rulename / group / option / char-val / num-val / prose-val, where
group = "(" *c-wsp alternation *c-wsp ")", option = "[" *c-wsp alternation *c-wsp "]",
char-val = DQUOTE *(%x20-21 / %x23-7E) DQUOTE and prose-val = "<" *(%x20-3D / %x3F-7E) ">" -/
inductive Element.Derives : Element → List Octet → List Octet → Prop where
  | reference {name input rest} (hname : NameDerives name input rest) :
      Element.Derives (.reference name) input rest
  | group {body input start stop rest} (hstart : Blanks input start)
      (hbody : Alternation.Derives body start stop) (hstop : Blanks stop (')'.toUInt8 :: rest)) :
      Element.Derives (.group body) ('('.toUInt8 :: input) rest
  | option {body input start stop rest} (hstart : Blanks input start)
      (hbody : Alternation.Derives body start stop) (hstop : Blanks stop (']'.toUInt8 :: rest)) :
      Element.Derives (.option body) ('['.toUInt8 :: input) rest
  | literal {octets} (rest) (hoctets : ∀ octet ∈ octets, octet.isQuotable) :
      Element.Derives (.literal octets) ('"'.toUInt8 :: (octets ++ '"'.toUInt8 :: rest)) rest
  | numeric {value input rest} (hvalue : Numeric.Derives value input rest) :
      Element.Derives (.numeric value) input rest
  | prose {octets} (rest) (hoctets : ∀ octet ∈ octets, octet.isProse) :
      Element.Derives (.prose octets) ('<'.toUInt8 :: (octets ++ '>'.toUInt8 :: rest)) rest

/-- repetition = [repeat] element -/
inductive Repetition.Derives : Repetition → List Octet → List Octet → Prop where
  | once {element input rest} (helement : Element.Derives element input rest) :
      Repetition.Derives ⟨none, element⟩ input rest
  | repeated {bounds element input middle rest} (hbounds : Repeat.Derives bounds input middle)
      (helement : Element.Derives element middle rest) :
      Repetition.Derives ⟨some bounds, element⟩ input rest

/-- concatenation = repetition *(1*c-wsp repetition) -/
inductive Concatenation.Derives : Concatenation → List Octet → List Octet → Prop where
  | single {repetition input rest} (hrepetition : Repetition.Derives repetition input rest) :
      Concatenation.Derives [repetition] input rest
  | cons {repetition others input stop start rest}
      (hrepetition : Repetition.Derives repetition input stop) (hblanks : SomeBlanks stop start)
      (hothers : Concatenation.Derives others start rest) :
      Concatenation.Derives (repetition :: others) input rest

/-- alternation = concatenation *(*c-wsp "/" *c-wsp concatenation) -/
inductive Alternation.Derives : Alternation → List Octet → List Octet → Prop where
  | single {branch input rest} (hbranch : Concatenation.Derives branch input rest) :
      Alternation.Derives [branch] input rest
  | cons {branch others input stop middle start rest}
      (hbranch : Concatenation.Derives branch input stop)
      (hstop : Blanks stop ('/'.toUInt8 :: middle)) (hstart : Blanks middle start)
      (hothers : Alternation.Derives others start rest) :
      Alternation.Derives (branch :: others) input rest

end

mutual

lemma Element.Derives.length_lt {element : Element} {input rest : List Octet} :
    element.Derives input rest → rest.length < input.length
  | .reference hname => hname.length_lt
  | .group hstart hbody hstop => by
    have hstart := hstart.length_le
    have hbody := Alternation.Derives.length_lt hbody
    have hstop := hstop.length_le
    simp only [List.length_cons] at hstop ⊢
    omega
  | .option hstart hbody hstop => by
    have hstart := hstart.length_le
    have hbody := Alternation.Derives.length_lt hbody
    have hstop := hstop.length_le
    simp only [List.length_cons] at hstop ⊢
    omega
  | .literal _ _ => by simp only [List.length_cons, List.length_append]; omega
  | .numeric hvalue => hvalue.length_lt
  | .prose _ _ => by simp only [List.length_cons, List.length_append]; omega

lemma Repetition.Derives.length_lt {repetition : Repetition} {input rest : List Octet} :
    repetition.Derives input rest → rest.length < input.length
  | .once helement => Element.Derives.length_lt helement
  | .repeated hbounds helement =>
    Nat.lt_trans (Element.Derives.length_lt helement) hbounds.length_lt

lemma Concatenation.Derives.length_lt {concatenation : Concatenation} {input rest : List Octet} :
    concatenation.Derives input rest → rest.length < input.length
  | .single hrepetition => Repetition.Derives.length_lt hrepetition
  | .cons hrepetition hblanks hothers =>
    Nat.lt_trans (Nat.lt_trans (Concatenation.Derives.length_lt hothers) hblanks.length_lt)
      (Repetition.Derives.length_lt hrepetition)

lemma Alternation.Derives.length_lt {alternation : Alternation} {input rest : List Octet} :
    alternation.Derives input rest → rest.length < input.length
  | .single hbranch => Concatenation.Derives.length_lt hbranch
  | .cons hbranch hstop hstart hothers => by
    have hbranch := Concatenation.Derives.length_lt hbranch
    have hstop := hstop.length_le
    have hstart := hstart.length_le
    have hothers := Alternation.Derives.length_lt hothers
    simp only [List.length_cons] at hstop
    omega

end

/-- elements = alternation *c-wsp -/
def Alternation.DerivesBody (body : Alternation) (input rest : List Octet) : Prop :=
  ∃ stop, body.Derives input stop ∧ Blanks stop rest

/-! ### Documents -/

/-- defined-as = *c-wsp ("=" / "=/") *c-wsp -/
inductive Marker.Derives : Marker → List Octet → List Octet → Prop where
  | basic {input middle rest} (hbefore : Blanks input ('='.toUInt8 :: middle))
      (hbehind : Blanks middle rest) : Marker.Derives .basic input rest
  | incremental {input middle rest}
      (hbefore : Blanks input ('='.toUInt8 :: '/'.toUInt8 :: middle))
      (hbehind : Blanks middle rest) : Marker.Derives .incremental input rest

/-- The c-nl behind a rule. The last rule of a document may end with it. -/
inductive RuleEnd : List Octet → List Octet → Prop where
  | lineEnd {input rest} (hend : LineEnd input rest) : RuleEnd input rest
  | endOfInput : RuleEnd [] []

/-- rule = rulename defined-as elements c-nl -/
inductive Rule.Derives : Rule → List Octet → List Octet → Prop where
  | intro {name marker body input afterName afterMarker stop rest}
      (hname : NameDerives name input afterName)
      (hmarker : Marker.Derives marker afterName afterMarker)
      (hbody : Alternation.DerivesBody body afterMarker stop) (hend : RuleEnd stop rest) :
      Rule.Derives ⟨name, marker, body⟩ input rest

/-- rulelist = *( rule / (*c-wsp c-nl) ), from some place of a document of a given length on. The
rules are listed with the offsets of their names. -/
inductive DefinitionsDerive (length : Nat) : List Definition → List Octet → Prop where
  | nil : DefinitionsDerive length [] []
  | rule {rule definitions input rest} (hrule : Rule.Derives rule input rest)
      (hothers : DefinitionsDerive length definitions rest) :
      DefinitionsDerive length (⟨rule, length - input.length⟩ :: definitions) input
  | emptyLine {definitions input middle rest} (hblanks : Blanks input middle)
      (hend : LineEnd middle rest) (hothers : DefinitionsDerive length definitions rest) :
      DefinitionsDerive length definitions input

/-- A document with its definitions. -/
def IsDocument (definitions : List Definition) (document : List Octet) : Prop :=
  DefinitionsDerive document.length definitions document

end AugmentedBnf
