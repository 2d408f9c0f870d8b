import AugmentedBnf.Proofs.Reader.ErrorPosition
import AugmentedBnf.Proofs.Reader.InStep

/-!
# What is read ahead

Three things are read ahead and given back if they are not completed: the end of a line that may go on
with an indented one, repeat bounds that need an element, and the full stop or the hyphen behind a
numeric value. What is reported then is that they are not expected at all, although a document may go
on with them.

* `IsTentative`: a rule of a document has been begun, and comes to an octet of this kind.
* `IsTentative.within`: the octets up to this one begin a document.

The relations follow the productions. Each of them tells an input from what is left of it where
something is expected, and what that is.
-/

namespace AugmentedBnf

/-- What the end of a line begins with: a line break, or the comment before it. -/
def Octet.isLineEnd (octet : Octet) : Bool := octet == ';'.toUInt8 || octet.isBreak

/-- The octets with which numeric values may go on, where there is a digit behind. -/
inductive Numeric.GoesOn : Numeric → Octet → Prop where
  | fullStop (radix values) : GoesOn ⟨radix, false, values⟩ '.'.toUInt8
  | hyphen (radix value) : GoesOn ⟨radix, false, [value]⟩ '-'.toUInt8

def Concatenation.EndsWith (concatenation : Concatenation) (value : Numeric) : Prop :=
  ∃ last ∈ concatenation.getLast?, last.element = .numeric value

def Alternation.EndsWith (alternation : Alternation) (value : Numeric) : Prop :=
  ∃ last ∈ alternation.getLast?, Concatenation.EndsWith last value

mutual

inductive Element.IsTentative : List Octet → Expected → List Octet → Prop where
  | group {inside start expected rest} (hblanks : Blanks inside start)
      (h : Alternation.IsTentative .closingParenthesis start expected rest) :
      Element.IsTentative ('('.toUInt8 :: inside) expected rest
  | option {inside start expected rest} (hblanks : Blanks inside start)
      (h : Alternation.IsTentative .closingSquareBracket start expected rest) :
      Element.IsTentative ('['.toUInt8 :: inside) expected rest

inductive Repetition.IsTentative : List Octet → Expected → List Octet → Prop where
  | once {input expected rest} (h : Element.IsTentative input expected rest) :
      Repetition.IsTentative input expected rest
  | repeated {bounds : Repeat} {input middle expected rest} (hbounds : bounds.Derives input middle)
      (h : Element.IsTentative middle expected rest) : Repetition.IsTentative input expected rest

inductive Concatenation.IsTentative : List Octet → Expected → List Octet → Prop where
  | first {input expected rest} (h : Repetition.IsTentative input expected rest) :
      Concatenation.IsTentative input expected rest
  | behind {first : Repetition} {input stop start expected rest} (hfirst : first.Derives input stop)
      (hblanks : SomeBlanks stop start) (h : Concatenation.IsTentative start expected rest) :
      Concatenation.IsTentative input expected rest

/-- The first argument is what has to close the alternation. Where it is expected, all of the alternation
has been read. -/
inductive Alternation.IsTentative : Expected → List Octet → Expected → List Octet → Prop where
  | first {closing input expected rest} (h : Concatenation.IsTentative input expected rest) :
      Alternation.IsTentative closing input expected rest
  | behind {closing} {first : Concatenation} {input stop middle start expected rest}
      (hfirst : first.Derives input stop) (hslash : Blanks stop ('/'.toUInt8 :: middle))
      (hblanks : Blanks middle start) (h : Alternation.IsTentative closing start expected rest) :
      Alternation.IsTentative closing input expected rest
  /-- The branch may stand in the next line, if this one is indented. -/
  | branch {closing first others} (hfirst : Octet.isLineEnd first) :
      Alternation.IsTentative closing (first :: others) .element (first :: others)
  /-- The bracket may stand in the next line, if this one is indented. -/
  | bracket {closing} {body : Alternation} {input stop first others} (hbody : body.Derives input stop)
      (hblanks : Blanks stop (first :: others)) (hfirst : first.isLineEnd)
      (hclosing : closing = .closingParenthesis ∨ closing = .closingSquareBracket) :
      Alternation.IsTentative closing input closing (first :: others)
  /-- The bounds may be those of one more repetition. -/
  | bounds {closing} {body : Alternation} {input stop first others} (hbody : body.Derives input stop)
      (hblanks : SomeBlanks stop (first :: others)) (hfirst : first.isBound) :
      Alternation.IsTentative closing input closing (first :: others)
  /-- There may be one more number in the numeric value before. -/
  | numeric {closing} {body : Alternation} {value : Numeric} {input first others}
      (hbody : body.Derives input (first :: others)) (hends : body.EndsWith value)
      (hfirst : value.GoesOn first) : Alternation.IsTentative closing input closing (first :: others)

end

inductive Rule.IsTentative : List Octet → Expected → List Octet → Prop where
  /-- The marker may stand in the next line, if this one is indented. -/
  | marker {name input behind first others} (hname : NameDerives name input behind)
      (hblanks : Blanks behind (first :: others)) (hfirst : Octet.isLineEnd first) :
      Rule.IsTentative input .definitionMarker (first :: others)
  | body {name} {marker : Marker} {input behind start expected rest}
      (hname : NameDerives name input behind) (hmarker : marker.Derives behind start)
      (h : Alternation.IsTentative .commentOrLineBreak start expected rest) :
      Rule.IsTentative input expected rest

/-- A rule of the document has been begun behind some lines, and what is left of it need not be what
has been expected. -/
def IsTentative (document : List Octet) (expected : Expected) (rest : List Octet) : Prop :=
  ∃ start, Lines document start ∧ Rule.IsTentative start expected rest

/-! ### How documents go on -/

lemma Octet.exists_takes_blank {octet : Octet} (h : octet.isLineEnd) :
    ∃ more, Takes Blank (octet :: more) := by
  have hspace : Octet.isWhiteSpace ' '.toUInt8 := by decide
  simp only [isLineEnd, isBreak, Bool.or_eq_true, beq_iff_eq] at h
  obtain rfl | rfl | rfl := h
  · have hend : Takes LineEnd (';'.toUInt8 :: ([] ++ ['\n'.toUInt8])) :=
      Takes.comment (List.forall_mem_nil _) fun rest => .feed rest
    exact ⟨['\n'.toUInt8, ' '.toUInt8], fun rest => .indentedLine (hend (' '.toUInt8 :: rest)) hspace⟩
  · exact ⟨['\n'.toUInt8, ' '.toUInt8], fun rest =>
      .indentedLine (.lineBreak (.returnAndFeed (' '.toUInt8 :: rest))) hspace⟩
  · exact ⟨[' '.toUInt8], fun rest =>
      .indentedLine (.lineBreak (.feed (' '.toUInt8 :: rest))) hspace⟩

lemma Octet.exists_takes_repetition {octet : Octet} (h : octet.isBound) :
    ∃ (repetition : Repetition) (more : List Octet), Takes repetition.Derives (octet :: more) := by
  obtain hdigit | hstar := Bool.or_eq_true_iff.mp h
  · have hvalue : Radix.decimal.value [octet] < UInt32.size := by
      have hlt := octet.toNat_lt
      simp only [Radix.value, List.foldl_cons, List.foldl_nil, Radix.digitValue, hdigit, if_true,
        UInt32.size]
      omega
    have hcount : Takes (Radix.decimal.Derives _) [octet] := fun rest =>
      .intro rest (List.cons_ne_nil _ _) (List.forall_mem_singleton.mpr hdigit) hvalue
    exact ⟨⟨some (.count _), .reference "a"⟩, ['a'.toUInt8], fun rest =>
      .repeated (.count (hcount _)) (.reference (takes_name_a rest))⟩
  · obtain rfl := beq_iff_eq.mp hstar
    refine ⟨⟨some (.between (none.getD 0) none), .reference "a"⟩, ['a'.toUInt8], fun rest => ?_⟩
    exact .repeated (.between (.absent _) (.absent _)) (.reference (takes_name_a rest))

lemma Concatenation.Derives.snoc {last : Repetition} {stop start rest : List Octet}
    (hblanks : SomeBlanks stop start) (hlast : last.Derives start rest) :
    ∀ {concatenation : Concatenation} {input : List Octet}, concatenation.Derives input stop →
      Concatenation.Derives (concatenation ++ [last]) input rest
  | _, _, .single hrepetition => .cons hrepetition hblanks (.single hlast)
  | _, _, .cons hrepetition hbetween hothers =>
    .cons hrepetition hbetween (snoc hblanks hlast hothers)

/-- One more repetition belongs to the last branch. -/
lemma Alternation.Derives.snoc {last : Repetition} {stop start rest : List Octet}
    (hblanks : SomeBlanks stop start) (hlast : last.Derives start rest) :
    ∀ {alternation : Alternation} {input : List Octet}, alternation.Derives input stop →
      ∃ longer : Alternation, longer.Derives input rest
  | _, _, .single hbranch => ⟨_, .single (hbranch.snoc hblanks hlast)⟩
  | _, _, .cons hbranch hslash hstart hothers => by
    obtain ⟨others, hothers⟩ := snoc hblanks hlast hothers
    exact ⟨_, .cons hbranch hslash hstart hothers⟩

lemma Radix.DerivesMembers.snoc {radix : Radix} {numbers : List UInt32} {number : UInt32}
    {input start rest : List Octet} (h : radix.DerivesMembers numbers input ('.'.toUInt8 :: start))
    (hnumber : radix.Derives number start rest) :
    radix.DerivesMembers (numbers ++ [number]) input rest := by
  -- The full stop belongs to the place behind all members, so the induction is on those before it.
  generalize hmiddle : '.'.toUInt8 :: start = middle at h
  induction h with
  | nil =>
    subst hmiddle
    exact .cons hnumber (.nil rest)
  | cons hfirst _ ih => exact .cons hfirst (ih hmiddle)

section

variable {value : Numeric} {first : Octet} {rest : List Octet}

lemma Numeric.GoesOn.exists_longer (hfirst : value.GoesOn first) {input : List Octet}
    (h : value.Derives input (first :: '1'.toUInt8 :: rest)) :
    ∃ longer : Numeric, longer.Derives input rest := by
  cases hfirst with
  | fullStop radix =>
    cases h with
    | sequence hletter hnumber hothers =>
      exact ⟨_, .sequence hletter hnumber (hothers.snoc (takes_number_one radix rest))⟩
  | hyphen radix =>
    cases h with
    | sequence hletter hnumber hothers =>
      cases hothers
      exact ⟨_, .range hletter hnumber (takes_number_one radix rest)⟩

lemma Repetition.Derives.exists_longer (hfirst : value.GoesOn first) {repetition : Repetition}
    {input : List Octet} (h : repetition.Derives input (first :: '1'.toUInt8 :: rest))
    (hends : repetition.element = .numeric value) :
    ∃ longer : Repetition, longer.Derives input rest := by
  obtain ⟨bounds, element⟩ := repetition
  obtain rfl : element = .numeric value := hends
  have helement : ∀ {start}, Element.Derives (.numeric value) start (first :: '1'.toUInt8 :: rest) →
      ∃ longer : Element, longer.Derives start rest := by
    intro start h
    cases h with
    | numeric h =>
      obtain ⟨longer, hlonger⟩ := hfirst.exists_longer h
      exact ⟨.numeric longer, .numeric hlonger⟩
  cases h with
  | once h =>
    obtain ⟨longer, hlonger⟩ := helement h
    exact ⟨_, .once hlonger⟩
  | repeated hbounds h =>
    obtain ⟨longer, hlonger⟩ := helement h
    exact ⟨_, .repeated hbounds hlonger⟩

lemma Concatenation.Derives.exists_longer (hfirst : value.GoesOn first) :
    ∀ {concatenation : Concatenation} {input : List Octet},
      concatenation.Derives input (first :: '1'.toUInt8 :: rest) → concatenation.EndsWith value →
        ∃ longer : Concatenation, longer.Derives input rest
  | _, _, .single hrepetition, ⟨last, hlast, helement⟩ => by
    obtain rfl : _ = last := by simpa using hlast
    obtain ⟨longer, hlonger⟩ := hrepetition.exists_longer hfirst helement
    exact ⟨[longer], .single hlonger⟩
  | _ :: others, _, .cons hrepetition hblanks hothers, ⟨last, hlast, helement⟩ => by
    have hne : others ≠ [] := by
      rintro rfl
      cases hothers
    rw [List.getLast?_cons_of_ne_nil hne] at hlast
    obtain ⟨longer, hlonger⟩ := exists_longer hfirst hothers ⟨last, hlast, helement⟩
    exact ⟨_ :: longer, .cons hrepetition hblanks hlonger⟩

/-- A numeric value at the end of an alternation goes on, and the alternation with it. -/
lemma Alternation.Derives.exists_longer (hfirst : value.GoesOn first) :
    ∀ {alternation : Alternation} {input : List Octet},
      alternation.Derives input (first :: '1'.toUInt8 :: rest) → alternation.EndsWith value →
        ∃ longer : Alternation, longer.Derives input rest
  | _, _, .single hbranch, ⟨last, hlast, hends⟩ => by
    obtain rfl : _ = last := by simpa using hlast
    obtain ⟨longer, hlonger⟩ := hbranch.exists_longer hfirst hends
    exact ⟨[longer], .single hlonger⟩
  | _ :: others, _, .cons hbranch hslash hblanks hothers, ⟨last, hlast, hends⟩ => by
    have hne : others ≠ [] := by
      rintro rfl
      cases hothers
    rw [List.getLast?_cons_of_ne_nil hne] at hlast
    obtain ⟨longer, hlonger⟩ := exists_longer hfirst hothers ⟨last, hlast, hends⟩
    exact ⟨_ :: longer, .cons hbranch hslash hblanks hlonger⟩

end

def Alternation.DerivesBehindBlanks (body : Alternation) (input rest : List Octet) : Prop :=
  ∃ start, Blanks input start ∧ body.DerivesBody start rest

lemma Takes.within_cons {outer : List Octet → List Octet → Prop} {before more : List Octet}
    {first : Octet} (h : Takes outer (before ++ first :: more)) (others : List Octet) :
    Within outer (before ++ first :: others) others :=
  ⟨before ++ [first], more, by simp, by simpa using h⟩

lemma Alternation.DerivesBody.within {body : Alternation} {before more : List Octet} {first : Octet}
    (h : body.DerivesBody (before ++ first :: more) []) (others : List Octet) :
    Within body.DerivesBehindBlanks (before ++ first :: others) others := by
  obtain ⟨word, heq, hword⟩ := isLocal_body _ _ _ h
  rw [List.append_nil] at heq
  subst heq
  have htakes : Takes body.DerivesBehindBlanks (before ++ first :: more) :=
    fun rest => ⟨_, .refl, hword rest⟩
  exact htakes.within_cons others

/-- A body breaks off between brackets, of which the closing one completes the element. -/
lemma Within.bracketed {body : Alternation} {opening closing : Octet} {element : Element}
    {inside start rest : List Octet} (h : Within body.DerivesBehindBlanks start rest)
    (helement : ∀ {inside start stop rest}, Blanks inside start → body.Derives start stop →
      Blanks stop (closing :: rest) → element.Derives (opening :: inside) rest)
    (hblanks : Blanks inside start) : Within element.Derives (opening :: inside) rest := by
  obtain ⟨before, rfl, hbefore⟩ := isLocal_blanks _ _ hblanks
  refine h.wrap (opening :: before) fun word hword => ⟨[closing], fun rest => ?_⟩
  obtain ⟨start, hstart, stop, hderives, hstop⟩ := hword (closing :: rest)
  simp only [List.cons_append, List.append_assoc, List.nil_append]
  exact helement ((hbefore _).trans hstart) hderives hstop

/-! The octets up to one that is read ahead begin a longer word than has been read. -/

mutual

lemma Element.IsTentative.within {input rest : List Octet} {expected : Expected} :
    Element.IsTentative input expected rest →
      ∃ value : Element, Within value.Derives input rest.tail
  | .group hblanks h => by
    obtain ⟨body, hbody⟩ := Alternation.IsTentative.within h
    exact ⟨.group body, hbody.bracketed .group hblanks⟩
  | .option hblanks h => by
    obtain ⟨body, hbody⟩ := Alternation.IsTentative.within h
    exact ⟨.option body, hbody.bracketed .option hblanks⟩

lemma Repetition.IsTentative.within {input rest : List Octet} {expected : Expected} :
    Repetition.IsTentative input expected rest →
      ∃ value : Repetition, Within value.Derives input rest.tail
  | .once h => by
    obtain ⟨value, hvalue⟩ := Element.IsTentative.within h
    exact ⟨⟨none, value⟩, hvalue.after [] fun _ hword rest => .once (hword rest)⟩
  | @Repetition.IsTentative.repeated bounds _ _ _ _ hbounds h => by
    obtain ⟨value, hvalue⟩ := Element.IsTentative.within h
    obtain ⟨before, rfl, hbefore⟩ := isLocal_bounds _ _ _ hbounds
    refine ⟨⟨some bounds, value⟩, hvalue.after before fun word hword rest => ?_⟩
    rw [List.append_assoc]
    exact .repeated (hbefore _) (hword rest)

lemma Concatenation.IsTentative.within {input rest : List Octet} {expected : Expected} :
    Concatenation.IsTentative input expected rest →
      ∃ value : Concatenation, Within value.Derives input rest.tail
  | .first h => by
    obtain ⟨value, hvalue⟩ := Repetition.IsTentative.within h
    exact ⟨[value], hvalue.after [] fun _ hword rest => .single (hword rest)⟩
  | .behind hfirst hblanks h => by
    obtain ⟨others, hothers⟩ := Concatenation.IsTentative.within h
    exact ⟨_ :: others, hothers.concatenation hfirst hblanks⟩

lemma Alternation.IsTentative.within {closing : Expected} {input rest : List Octet}
    {expected : Expected} : Alternation.IsTentative closing input expected rest →
      ∃ body : Alternation, Within body.DerivesBehindBlanks input rest.tail
  | .first h => by
    obtain ⟨branch, hbranch⟩ := Concatenation.IsTentative.within h
    exact ⟨[branch], hbranch.after [] fun _ hword rest => ⟨_, .refl, rest, .single (hword rest), .refl⟩⟩
  | @Alternation.IsTentative.behind _ first _ _ _ start _ _ hfirst hslash hblanks h => by
    obtain ⟨others, hothers⟩ := Alternation.IsTentative.within h
    obtain ⟨word, rfl, hword⟩ := hfirst.exists_takes
    obtain ⟨left, rfl, hleft⟩ := isLocal_blanks _ _ hslash
    obtain ⟨right, rfl, hright⟩ := isLocal_blanks _ _ hblanks
    refine ⟨first :: others, ?_⟩
    have hbehind : Within (Alternation.DerivesBehindBlanks (first :: others))
        ((word ++ (left ++ '/'.toUInt8 :: right)) ++ start) rest.tail := by
      refine hothers.after _ fun last hlast rest => ?_
      obtain ⟨start, hstart, stop, hderives, hstop⟩ := hlast rest
      simp only [List.append_assoc, List.cons_append]
      exact ⟨_, .refl, stop, .cons (hword _) (hleft _) ((hright _).trans hstart) hderives, hstop⟩
    simpa only [List.append_assoc, List.cons_append] using hbehind
  | @Alternation.IsTentative.branch _ first others hfirst => by
    obtain ⟨more, hmore⟩ := Octet.exists_takes_blank hfirst
    refine ⟨[[⟨none, .reference "a"⟩]], [first], more ++ ['a'.toUInt8], rfl, fun rest => ?_⟩
    obtain ⟨stop, hderives, hstop⟩ := takes_body_a rest
    have hblank := hmore ('a'.toUInt8 :: rest)
    exact ⟨_, .single (by simpa using hblank), stop, hderives, hstop⟩
  | @Alternation.IsTentative.bracket _ body _ _ first _ hbody hblanks hfirst _ => by
    obtain ⟨more, hmore⟩ := Octet.exists_takes_blank hfirst
    obtain ⟨word, rfl, hword⟩ := hbody.exists_takes
    obtain ⟨between, rfl, hbetween⟩ := isLocal_blanks _ _ hblanks
    have hderives : body.DerivesBody (word ++ between ++ first :: more) [] := by
      rw [List.append_assoc]
      exact ⟨_, hword _, (hbetween _).tail (by simpa using hmore [])⟩
    refine ⟨body, ?_⟩
    rw [← List.append_assoc]
    exact hderives.within _
  | @Alternation.IsTentative.bounds _ _ _ _ first _ hbody hblanks hfirst => by
    obtain ⟨repetition, more, hmore⟩ := Octet.exists_takes_repetition hfirst
    obtain ⟨word, rfl, hword⟩ := hbody.exists_takes
    obtain ⟨between, rfl, hbetween⟩ := isLocal_someBlanks _ _ hblanks
    obtain ⟨longer, hlonger⟩ := Alternation.Derives.snoc (hbetween _) (hmore []) (hword _)
    have hderives : longer.DerivesBody (word ++ between ++ first :: more) [] := by
      rw [List.append_assoc]
      exact ⟨[], by simpa using hlonger, .refl⟩
    refine ⟨longer, ?_⟩
    rw [← List.append_assoc]
    exact hderives.within _
  | .numeric hbody hends hfirst => by
    obtain ⟨word, rfl, hword⟩ := hbody.exists_takes
    obtain ⟨longer, hlonger⟩ :=
      Alternation.Derives.exists_longer hfirst (hword (_ :: '1'.toUInt8 :: [])) hends
    exact ⟨longer, Alternation.DerivesBody.within ⟨[], hlonger, .refl⟩ _⟩

end

lemma Marker.Derives.trans {marker : Marker} {input start rest : List Octet}
    (h : marker.Derives input start) (hblanks : Blanks start rest) : marker.Derives input rest := by
  cases h with
  | basic hbefore hbehind => exact .basic hbefore (hbehind.trans hblanks)
  | incremental hbefore hbehind => exact .incremental hbefore (hbehind.trans hblanks)

lemma Rule.IsTentative.within {input rest : List Octet} {expected : Expected}
    (h : Rule.IsTentative input expected rest) :
    ∃ rule : Rule, Within rule.Derives input rest.tail := by
  cases h with
  | @marker _ _ _ first others hname hblanks hfirst =>
    obtain ⟨more, hmore⟩ := Octet.exists_takes_blank hfirst
    obtain ⟨word, rfl, hword⟩ := isLocal_name _ _ _ hname
    obtain ⟨between, rfl, hbetween⟩ := isLocal_blanks _ _ hblanks
    have hbefore : Takes Blanks (between ++ (first :: more)) := fun rest => by
      rw [List.append_assoc]
      exact (hbetween _).tail (hmore rest)
    have hrule := Takes.rule hword (Takes.basic hbefore) takes_body_a takes_lineEnd_feed
    simp only [List.append_assoc, List.cons_append] at hrule
    rw [← List.append_assoc] at hrule ⊢
    exact ⟨_, hrule.within_cons others⟩
  | @body name marker _ _ _ _ _ hname hmarker h =>
    obtain ⟨body, hbody⟩ := h.within
    obtain ⟨first, rfl, hfirst⟩ := isLocal_name _ _ _ hname
    obtain ⟨second, rfl, hsecond⟩ := isLocal_marker _ _ _ hmarker
    rw [← List.append_assoc]
    -- Any line feed ends the rule, since no bracket is left open at this level.
    refine ⟨⟨name, marker, body⟩, hbody.wrap _ fun word hword => ⟨['\n'.toUInt8], fun rest => ?_⟩⟩
    obtain ⟨start, hstart, hderives⟩ := hword ('\n'.toUInt8 :: rest)
    simp only [List.append_assoc, List.cons_append, List.nil_append]
    exact .intro (hfirst _) ((hsecond _).trans hstart) hderives
      (.lineEnd (takes_lineEnd_feed rest))

lemma Rule.IsTentative.head {input rest : List Octet} {expected : Expected}
    (h : Rule.IsTentative input expected rest) :
    ∃ first others, input = first :: others ∧ first.isAlpha := by
  cases h with
  | marker hname => exact hname.head
  | body hname => exact hname.head

lemma LineEnd.exists_append {input rest : List Octet} (h : LineEnd input rest) (hrest : rest ≠ []) :
    ∃ front, input = front ++ '\n'.toUInt8 :: rest := by
  have hbreak : ∀ {input}, LineBreak input rest → ∃ front, input = front ++ '\n'.toUInt8 :: rest := by
    intro input h
    cases h with
    | returnAndFeed => exact ⟨['\r'.toUInt8], rfl⟩
    | feed => exact ⟨[], rfl⟩
  cases h with
  | lineBreak h => exact hbreak h
  | @comment text _ _ _ h =>
    obtain ⟨front, rfl⟩ := hbreak h
    exact ⟨';'.toUInt8 :: (text ++ front), by simp⟩
  | lastComment => exact absurd rfl hrest

lemma Line.exists_append {input rest : List Octet} (h : Line input rest) (hrest : rest ≠ []) :
    ∃ front, input = front ++ '\n'.toUInt8 :: rest := by
  have hbehind : ∀ {middle} (before : List Octet), LineEnd middle rest →
      ∃ front, before ++ middle = front ++ '\n'.toUInt8 :: rest := by
    intro middle before hend
    obtain ⟨front, rfl⟩ := hend.exists_append hrest
    exact ⟨before ++ front, (List.append_assoc _ _ _).symm⟩
  cases h with
  | rule h =>
    cases h with
    | intro hname hmarker hbody hend =>
      obtain ⟨first, rfl, -⟩ := isLocal_name _ _ _ hname
      obtain ⟨second, rfl, -⟩ := isLocal_marker _ _ _ hmarker
      obtain ⟨third, rfl, -⟩ := isLocal_body _ _ _ hbody
      cases hend with
      | lineEnd hend =>
        obtain ⟨front, heq⟩ := hbehind (first ++ (second ++ third)) hend
        exact ⟨front, by simpa using heq⟩
      | endOfInput => exact absurd rfl hrest
  | empty hblanks hend =>
    obtain ⟨before, rfl, -⟩ := isLocal_blanks _ _ hblanks
    exact hbehind before hend

/-- Behind some lines another line begins. -/
lemma Lines.eq_or_exists_append {input rest : List Octet} (h : Lines input rest) (hrest : rest ≠ []) :
    input = rest ∨ ∃ front, input = front ++ '\n'.toUInt8 :: rest := by
  induction h using Relation.ReflTransGen.head_induction_on with
  | refl => exact .inl rfl
  | head hline _ ih =>
    obtain rfl | ⟨front, rfl⟩ := ih
    · exact .inr (hline.exists_append hrest)
    · obtain ⟨before, rfl⟩ := hline.exists_append (by simp)
      exact .inr ⟨before ++ '\n'.toUInt8 :: front, by simp⟩

/-- A document may go on with the octet at which something else is expected. -/
lemma IsTentative.within {document rest : List Octet} {expected : Expected}
    (h : IsTentative document expected rest) : Within Lines document rest.tail := by
  obtain ⟨start, hlines, hrule⟩ := h
  have hne : start ≠ [] := by
    obtain ⟨_, _, rfl, -⟩ := hrule.head
    exact List.cons_ne_nil _ _
  obtain ⟨rule, hrule⟩ := hrule.within
  -- Each line before is whole, and the rule that is broken off begins another one.
  induction hlines using Relation.ReflTransGen.head_induction_on with
  | refl => exact hrule.after [] fun _ hword rest => .single (.rule (hword rest))
  | head hline hlines ih =>
    refine ih.lines hline ?_
    rintro rfl
    -- Behind a line without an end of its own nothing could begin.
    obtain heq | ⟨front, heq⟩ := Lines.eq_or_exists_append hlines hne
    · exact hne heq.symm
    · simp at heq

end AugmentedBnf
