import AugmentedBnf.Proofs.Reader.Soundness

/-!
# The readers of rule bodies take what is derived

A reader takes what is derived where the derivation cannot be continued: behind an element neither a
name nor a numeric value goes on, and behind the blanks that follow a concatenation or an
alternation stands what closes it. As with soundness, one level of nesting comes first.
-/

namespace AugmentedBnf

lemma Blank.head {input rest : List Octet} (h : Blank input rest) :
    ∃ first others, input = first :: others ∧ first.opensBlank := by
  cases h with
  | @whiteSpace octet _ hspace => exact ⟨octet, rest, rfl, by simp [Octet.opensBlank, hspace]⟩
  | indentedLine hend =>
    obtain ⟨first, others, rfl, hfirst⟩ := hend.head
    refine ⟨first, others, rfl, ?_⟩
    rcases hfirst with rfl | rfl | rfl <;> decide

lemma Blanks.cases_opens {input rest : List Octet} (h : Blanks input rest) :
    input = rest ∨ ∃ first others, input = first :: others ∧ first.opensBlank := by
  obtain rfl | ⟨_, hblank, -⟩ := Relation.ReflTransGen.cases_head h
  · exact Or.inl rfl
  · exact Or.inr hblank.head

lemma not_blank_of_head {first : Octet} {others : List Octet} (hfirst : first.opensBlank = false)
    (rest : List Octet) : ¬ Blank (first :: others) rest := by
  intro h
  obtain ⟨_, _, heq, hblank⟩ := h.head
  cases heq
  rw [hfirst] at hblank
  contradiction

lemma Settles.of_head {first : Octet} {input others : List Octet}
    (hblanks : Blanks input (first :: others)) (hfirst : first.opensBlank = false) :
    Settles input (first :: others) :=
  ⟨hblanks, not_blank_of_head hfirst⟩

lemma Settles.of_opens {first : Octet} {input others : List Octet}
    (hblanks : Blanks input (first :: others)) (hfirst : first.opensRepetition) :
    Settles input (first :: others) :=
  Settles.of_head hblanks (Octet.not_of_opensRepetition hfirst).1

lemma Settles.cases_head {input stop : List Octet} (h : Settles input stop) :
    (∀ rest, ¬ Blank input rest) ∧ input = stop ∨
      ∃ middle, Blank input middle ∧ Settles middle stop := by
  obtain ⟨hblanks, hlast⟩ := h
  obtain rfl | ⟨middle, hblank, hblanks⟩ := hblanks.cases_head
  · exact Or.inl ⟨hlast, rfl⟩
  · exact Or.inr ⟨middle, hblank, hblanks, hlast⟩

lemma Element.Derives.head {element : Element} {input rest : List Octet}
    (h : element.Derives input rest) :
    ∃ first others, input = first :: others ∧ first.opensElement := by
  cases h with
  | reference hname =>
    cases hname with
    | intro _ hfirst => exact ⟨_, _, rfl, by simp [Octet.opensElement, hfirst]⟩
  | group => exact ⟨_, _, rfl, by decide⟩
  | option => exact ⟨_, _, rfl, by decide⟩
  | literal => exact ⟨_, _, rfl, by decide⟩
  | numeric hvalue =>
    cases hvalue with
    | sequence => exact ⟨_, _, rfl, by decide⟩
    | range => exact ⟨_, _, rfl, by decide⟩
  | prose => exact ⟨_, _, rfl, by decide⟩

lemma Element.Derives.bars_bound {element : Element} {input rest : List Octet}
    (h : element.Derives input rest) : Bars Octet.isBound input := by
  obtain ⟨first, others, rfl, hfirst⟩ := h.head
  exact bars_cons (Octet.not_isBound_of_opensElement hfirst)

lemma Radix.Derives.head {number : UInt32} {input rest : List Octet}
    (h : Radix.decimal.Derives number input rest) :
    ∃ first others, input = first :: others ∧ first.isBound := by
  cases h with
  | @intro digits _ hne hdigits =>
    cases digits with
    | nil => exact absurd rfl hne
    | cons first digits =>
      have hdigit : first.isDigit := hdigits first List.mem_cons_self
      exact ⟨first, _, rfl, by simp [Octet.isBound, hdigit]⟩

lemma Repeat.Derives.head {bounds : Repeat} {input rest : List Octet}
    (h : bounds.Derives input rest) :
    ∃ first others, input = first :: others ∧ first.isBound := by
  cases h with
  | count hnumber => exact hnumber.head
  | between hmin =>
    cases hmin with
    | absent => exact ⟨_, _, rfl, by decide⟩
    | present hnumber => exact hnumber.head

lemma Repetition.Derives.head {repetition : Repetition} {input rest : List Octet}
    (h : repetition.Derives input rest) :
    ∃ first others, input = first :: others ∧ first.opensRepetition := by
  cases h with
  | once helement =>
    obtain ⟨first, others, rfl, hfirst⟩ := helement.head
    exact ⟨first, others, rfl, by simp [Octet.opensRepetition, hfirst]⟩
  | repeated hbounds =>
    obtain ⟨first, others, rfl, hfirst⟩ := hbounds.head
    exact ⟨first, others, rfl, by simp [Octet.opensRepetition, hfirst]⟩

lemma Concatenation.Derives.head {concatenation : Concatenation} {input rest : List Octet}
    (h : concatenation.Derives input rest) :
    ∃ first others, input = first :: others ∧ first.opensRepetition := by
  cases h with
  | single hrepetition => exact hrepetition.head
  | cons hrepetition => exact hrepetition.head

lemma Alternation.Derives.head {alternation : Alternation} {input rest : List Octet}
    (h : alternation.Derives input rest) :
    ∃ first others, input = first :: others ∧ first.opensRepetition := by
  cases h with
  | single hbranch => exact hbranch.head
  | cons hbranch => exact hbranch.head

/-! ### Completeness -/

/-- Behind the blanks that an input begins with stands an octet of a class, or the input ends. -/
def EndsBy (closes : Octet → Bool) (input : List Octet) : Prop :=
  ∃ stop, Settles input stop ∧ ∀ octet ∈ stop.head?, closes octet

lemma EndsBy.of_head {closes : Octet → Bool} {first : Octet} {input others : List Octet}
    (hsettles : Settles input (first :: others)) (hfirst : closes first) : EndsBy closes input :=
  ⟨first :: others, hsettles, by simpa using hfirst⟩

lemma EndsBy.closesConcatenation {input : List Octet} (h : EndsBy Octet.closesAlternation input) :
    EndsBy Octet.closesConcatenation input := by
  obtain ⟨stop, hsettles, hstop⟩ := h
  exact ⟨stop, hsettles, fun octet hoctet =>
    (Octet.closesConcatenation_of_closesAlternation (hstop octet hoctet)).1⟩

lemma Blank.bars_continuation {input rest : List Octet} (h : Blank input rest) :
    Bars Octet.isContinuation input := by
  obtain ⟨first, others, rfl, hfirst⟩ := h.head
  exact bars_cons (Octet.not_of_opensBlank hfirst).1

lemma EndsBy.bars_continuation {input : List Octet} (h : EndsBy Octet.closesConcatenation input) :
    Bars Octet.isContinuation input := by
  obtain ⟨stop, hsettles, hstop⟩ := h
  -- Where blanks stand, they end what came before, and else the octet behind them does.
  obtain ⟨-, rfl⟩ | ⟨_, hblank, -⟩ := hsettles.cases_head
  · exact fun octet hoctet => (Octet.not_of_closesConcatenation (hstop octet hoctet)).1
  · exact hblank.bars_continuation

namespace Reader

variable {element : Reader Element}

/-- Up to a length of the input, the reader takes what is derived, and nothing else. -/
structure Faithful (length : Nat) (element : Reader Element) : Prop where
  sound : element.Sound
  complete : ∀ {value : Element} {input rest}, value.Derives input rest → input.length ≤ length →
    Bars Octet.isContinuation rest → element input = .ok (value, rest)
  declines : ∀ {input}, Bars Octet.opensElement input → element.Declines input

namespace Faithful

variable {length : Nat}

lemma repetitionOf (helement : element.Faithful length) {input rest : List Octet}
    {value : Repetition} (h : value.Derives input rest) (hlength : input.length ≤ length)
    (hrest : Bars Octet.isContinuation rest) :
    repetitionOf element input = .ok (value, rest) := by
  simp only [Reader.repetitionOf, bind_eq_ok, optional_eq_ok]
  cases h with
  | once hvalue =>
    exact ⟨none, _, Or.inr ⟨bounds_declines hvalue.bars_bound, rfl, rfl⟩, _, rest,
      helement.complete hvalue hlength hrest, rfl⟩
  | repeated hbounds hvalue =>
    have hmiddle := hbounds.length_lt.le.trans hlength
    exact ⟨some _, _, Or.inl ⟨_, bounds_of_derives hbounds hvalue.bars_bound, rfl⟩, _, rest,
      helement.complete hvalue hmiddle hrest, rfl⟩

lemma repetitionOf_declines (helement : element.Faithful length) {input : List Octet}
    (h : ∀ octet ∈ input.head?, octet.closesConcatenation) :
    (Reader.repetitionOf element).Declines input := by
  have hbounds : bounds.Declines input :=
    bounds_declines fun octet hoctet => (Octet.not_of_closesConcatenation (h octet hoctet)).2.1
  have helement : element.Declines input :=
    helement.declines fun octet hoctet => (Octet.not_of_closesConcatenation (h octet hoctet)).2.2
  exact bind_declines.mpr (Or.inr ⟨none, input, optional_eq_ok.mpr (Or.inr ⟨hbounds, rfl, rfl⟩),
    bind_declines.mpr (Or.inl helement)⟩)

lemma nextRepetition_declines (helement : element.Faithful length) {input : List Octet}
    (h : EndsBy Octet.closesConcatenation input) :
    (Reader.nextRepetition element).Declines input := by
  obtain ⟨stop, hsettles, hstop⟩ := h
  obtain ⟨hnone, -⟩ | ⟨middle, hblank, hsettles⟩ := hsettles.cases_head
  · exact bind_declines.mpr (Or.inl (many1_blank_declines hnone))
  · obtain ⟨_, hmany⟩ := exists_many1_blank.mpr ⟨middle, hblank, hsettles⟩
    exact bind_declines.mpr (Or.inr ⟨_, stop, hmany, helement.repetitionOf_declines hstop⟩)

lemma concatenation_parts (helement : element.Faithful length) (others : Concatenation) :
    ∀ {first : Repetition} {input rest : List Octet},
      Concatenation.Derives (first :: others) input rest → input.length ≤ length →
        EndsBy Octet.closesConcatenation rest →
          ∃ middle, Bars Octet.isContinuation middle ∧ first.Derives input middle ∧
            many (Reader.nextRepetition element) middle = .ok (others, rest) := by
  -- Where the first repetition stops depends on what is behind it, hence the others come first.
  have hshrinks := helement.sound.shrinks_nextRepetition
  induction others with
  | nil =>
    intro first input rest h _ hrest
    cases h with
    | single hfirst =>
      exact ⟨rest, hrest.bars_continuation, hfirst, (many_eq_ok hshrinks).mpr
        (Or.inr ⟨helement.nextRepetition_declines hrest, rfl, rfl⟩)⟩
    | cons _ _ hothers => cases hothers
  | cons second others ih =>
    intro first input rest h hlength hrest
    cases h with
    | @cons _ _ _ stop start _ hfirst hblanks hothers =>
      have hstart : start.length ≤ length := by
        have hfirst := hfirst.length_lt
        have hblanks := hblanks.length_lt
        omega
      obtain ⟨middle, hmiddle, hsecond, hmany⟩ := ih hothers hstart hrest
      obtain ⟨_, _, rfl, hhead⟩ := hothers.head
      obtain ⟨next, hblank, hblanks⟩ := Relation.TransGen.head'_iff.mp hblanks
      have hnext : Reader.nextRepetition element stop = .ok (second, middle) :=
        nextRepetition_eq_ok.mpr ⟨next, _, hblank, Settles.of_opens hblanks hhead,
          helement.repetitionOf hsecond hstart hmiddle⟩
      exact ⟨stop, hblank.bars_continuation, hfirst, (many_eq_ok hshrinks).mpr
        (Or.inl ⟨second, middle, others, hnext, hmany, rfl⟩)⟩

lemma concatenationOf (helement : element.Faithful length) {input rest : List Octet}
    {value : Concatenation} (h : value.Derives input rest) (hlength : input.length ≤ length)
    (hrest : EndsBy Octet.closesConcatenation rest) :
    concatenationOf element input = .ok (value, rest) := by
  cases value with
  | nil => cases h
  | cons first others =>
    obtain ⟨middle, hmiddle, hfirst, hmany⟩ := helement.concatenation_parts others h hlength hrest
    exact concatenationOf_eq_ok.mpr
      ⟨first, middle, others, helement.repetitionOf hfirst hlength hmiddle, hmany, rfl⟩

lemma nextBranch_declines (element : Reader Element) {input : List Octet}
    (h : EndsBy Octet.closesAlternation input) : (nextBranch element).Declines input := by
  obtain ⟨stop, hsettles, hstop⟩ := h
  refine bind_declines.mpr (Or.inr ⟨(), stop, blanks_eq_ok.mpr hsettles, ?_⟩)
  refine bind_declines.mpr (Or.inl (exactly_declines.mpr fun octet hoctet => ?_))
  exact beq_eq_false_iff_ne.mpr
    (Octet.closesConcatenation_of_closesAlternation (hstop octet hoctet)).2

lemma alternation_parts (helement : element.Faithful length) (others : Alternation) :
    ∀ {first : Concatenation} {input rest : List Octet},
      Alternation.Derives (first :: others) input rest → input.length ≤ length →
        EndsBy Octet.closesAlternation rest →
          ∃ middle, EndsBy Octet.closesConcatenation middle ∧ first.Derives input middle ∧
            many (nextBranch element) middle = .ok (others, rest) := by
  have hshrinks := helement.sound.shrinks_nextBranch
  induction others with
  | nil =>
    intro first input rest h _ hrest
    cases h with
    | single hfirst =>
      exact ⟨rest, hrest.closesConcatenation, hfirst, (many_eq_ok hshrinks).mpr
        (Or.inr ⟨nextBranch_declines element hrest, rfl, rfl⟩)⟩
    | cons _ _ _ hothers => cases hothers
  | cons second others ih =>
    intro first input rest h hlength hrest
    cases h with
    | @cons _ _ _ stop behind start _ hfirst hstop hstart hothers =>
      have hlength : start.length ≤ length := by
        have hfirst := hfirst.length_lt
        have hstop := hstop.length_le
        have hstart := hstart.length_le
        simp only [List.length_cons] at hstop
        omega
      obtain ⟨middle, hmiddle, hsecond, hmany⟩ := ih hothers hlength hrest
      obtain ⟨_, _, rfl, hhead⟩ := hothers.head
      have hslash : Settles stop ('/'.toUInt8 :: behind) := Settles.of_head hstop (by decide)
      have hnext : nextBranch element stop = .ok (second, middle) :=
        nextBranch_eq_ok.mpr ⟨behind, _, hslash, Settles.of_opens hstart hhead,
          helement.concatenationOf hsecond hlength hmiddle⟩
      exact ⟨stop, EndsBy.of_head hslash (by decide), hfirst, (many_eq_ok hshrinks).mpr
        (Or.inl ⟨second, middle, others, hnext, hmany, rfl⟩)⟩

lemma alternationOf (helement : element.Faithful length) {input rest : List Octet}
    {value : Alternation} (h : value.Derives input rest) (hlength : input.length ≤ length)
    (hrest : EndsBy Octet.closesAlternation rest) :
    alternationOf element input = .ok (value, rest) := by
  cases value with
  | nil => cases h
  | cons first others =>
    obtain ⟨middle, hmiddle, hfirst, hmany⟩ := helement.alternation_parts others h hlength hrest
    exact alternationOf_eq_ok.mpr
      ⟨first, middle, others, helement.concatenationOf hfirst hlength hmiddle, hmany, rfl⟩

lemma bracketed (helement : element.Faithful length) {opening closing : Char}
    {expected : Expected} {inside start stop rest : List Octet} {value : Alternation}
    (hstart : Blanks inside start) (h : value.Derives start stop)
    (hstop : Blanks stop (closing.toUInt8 :: rest)) (hlength : inside.length ≤ length)
    (hclosing : closing = ')' ∨ closing = ']') :
    bracketed opening closing expected element (opening.toUInt8 :: inside) =
      .ok (value, rest) := by
  have hclosing : Octet.closesAlternation closing.toUInt8 ∧
      Octet.opensBlank closing.toUInt8 = false := by
    rcases hclosing with rfl | rfl <;> decide
  have hsettles := Settles.of_head hstop hclosing.2
  obtain ⟨_, _, rfl, hhead⟩ := h.head
  exact bracketed_eq_ok.mpr ⟨inside, _, stop, rfl, Settles.of_opens hstart hhead,
    helement.alternationOf h (hstart.length_le.trans hlength)
      (EndsBy.of_head hsettles hclosing.1), hsettles⟩

lemma elementOf (helement : element.Faithful length) :
    (elementOf element).Faithful (length + 1) where
  sound := helement.sound.elementOf
  complete := by
    intro value input rest h hlength hrest
    -- Only inner elements need the hypothesis, and their input is shorter by the bracket.
    rw [elementOf_eq_ok]
    cases h with
    | reference hname =>
      exact ruleName_eq_ok.mpr ⟨hname, fun octet hoctet =>
        (Bool.or_eq_false_iff.mp (hrest octet hoctet)).1⟩
    | group hstart hbody hstop =>
      exact helement.bracketed hstart hbody hstop (Nat.le_of_succ_le_succ hlength) (Or.inl rfl)
    | option hstart hbody hstop =>
      exact helement.bracketed hstart hbody hstop (Nat.le_of_succ_le_succ hlength) (Or.inr rfl)
    | literal _ hoctets => exact literal_eq_ok.mpr ⟨rfl, hoctets⟩
    | numeric hvalue => exact numeric_of_derives hvalue hrest
    | prose _ hoctets => exact prose_eq_ok.mpr ⟨rfl, hoctets⟩
  declines := by
    intro input h
    cases input with
    | nil => exact ⟨_, rfl, rfl⟩
    | cons first others =>
      have hfirst := h first rfl
      simp only [Octet.opensElement, List.any_cons, List.any_nil, Bool.or_false,
        Bool.or_eq_false_iff, beq_eq_false_iff_ne] at hfirst
      refine ⟨⟨.element, first :: others, false⟩, ?_, rfl⟩
      simp only [Reader.elementOf, hfirst, Bool.false_eq_true, if_false]

end Faithful

lemma faithful_elementUpTo (depth : Nat) : (elementUpTo depth).Faithful depth := by
  induction depth with
  | zero =>
    refine ⟨sound_elementUpTo 0, fun h hlength _ => ?_, fun _ => ⟨_, rfl, rfl⟩⟩
    have hshorter := h.length_lt
    omega
  | succ depth ih => exact ih.elementOf

lemma derives_of_body {input rest : List Octet} {value : Alternation}
    (h : body input = .ok (value, rest)) :
    ∃ stop, value.Derives input stop ∧ Settles stop rest := by
  simp only [body, bind_eq_ok, blanks_eq_ok, pure_eq_ok] at h
  obtain ⟨_, stop, hvalue, _, _, hsettles, h⟩ := h
  cases h
  exact ⟨stop, (sound_elementUpTo input.length).alternationOf hvalue, hsettles⟩

lemma body_of_derives {input stop rest : List Octet} {value : Alternation}
    (h : value.Derives input stop) (hsettles : Settles stop rest)
    (hrest : ∀ octet ∈ rest.head?, octet.closesAlternation) :
    body input = .ok (value, rest) := by
  simp only [body, bind_eq_ok, blanks_eq_ok, pure_eq_ok]
  exact ⟨value, stop, (faithful_elementUpTo input.length).alternationOf h (le_refl _)
    ⟨rest, hsettles, hrest⟩, (), rest, hsettles, rfl⟩

end Reader

end AugmentedBnf
