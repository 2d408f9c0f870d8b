import AugmentedBnf.Proofs.Reader.Numeric

/-!
# The readers of rule bodies take nothing but what is derived

This is shown for one level of nesting first, with a reader of elements that has the property
already.
-/

namespace AugmentedBnf

namespace Reader

variable {element : Reader Element}

def Sound (element : Reader Element) : Prop :=
  ∀ input value rest, element input = .ok (value, rest) → value.Derives input rest

lemma Sound.repetitionOf (helement : element.Sound) {input rest : List Octet} {value : Repetition}
    (h : repetitionOf element input = .ok (value, rest)) : value.Derives input rest := by
  simp only [Reader.repetitionOf, bind_eq_ok, optional_eq_ok, pure_eq_ok] at h
  obtain ⟨_, middle, ⟨bounds, hbounds, rfl⟩ | ⟨-, rfl, rfl⟩, value, _, hvalue, h⟩ := h
  · cases h
    exact Repetition.Derives.repeated (derives_of_bounds hbounds) (helement _ _ _ hvalue)
  · cases h
    exact Repetition.Derives.once (helement _ _ _ hvalue)

/-- A repetition that is not the first of its concatenation. -/
def nextRepetition (element : Reader Element) : Reader Repetition := do
  let _ ← many1 blank
  repetitionOf element

lemma nextRepetition_eq_ok {input rest : List Octet} {value : Repetition} :
    nextRepetition element input = .ok (value, rest) ↔
      ∃ middle start, Blank input middle ∧ Settles middle start ∧
        repetitionOf element start = .ok (value, rest) := by
  simp only [nextRepetition, bind_eq_ok]
  constructor
  · intro h
    obtain ⟨_, start, hmany, hvalue⟩ := h
    obtain ⟨middle, hblank, hsettles⟩ := exists_many1_blank.mp ⟨_, hmany⟩
    exact ⟨middle, start, hblank, hsettles, hvalue⟩
  · intro h
    obtain ⟨middle, start, hblank, hsettles, hvalue⟩ := h
    obtain ⟨_, hmany⟩ := exists_many1_blank.mpr ⟨middle, hblank, hsettles⟩
    exact ⟨_, start, hmany, hvalue⟩

lemma Sound.nextRepetition (helement : element.Sound) {input rest : List Octet}
    {value : Repetition} (h : nextRepetition element input = .ok (value, rest)) :
    ∃ start, SomeBlanks input start ∧ value.Derives start rest := by
  obtain ⟨middle, start, hblank, hsettles, hvalue⟩ := nextRepetition_eq_ok.mp h
  exact ⟨start, Relation.TransGen.head' hblank hsettles.1, helement.repetitionOf hvalue⟩

lemma Sound.shrinks_nextRepetition (helement : element.Sound) :
    (Reader.nextRepetition element).Shrinks := by
  intro _ _ _ h
  obtain ⟨_, hblanks, hvalue⟩ := helement.nextRepetition h
  exact hvalue.length_lt.trans hblanks.length_lt

lemma Sound.many_nextRepetition (helement : element.Sound) {first : Repetition}
    {others : List Repetition} {start input rest : List Octet} (hfirst : first.Derives start input)
    (h : many (Reader.nextRepetition element) input = .ok (others, rest)) :
    Concatenation.Derives (first :: others) start rest := by
  -- The loop begins behind a repetition, so the motive takes any one that ends there.
  refine many_induction (motive := fun input others => ∀ (first : Repetition) start,
    first.Derives start input → Concatenation.Derives (first :: others) start rest)
    helement.shrinks_nextRepetition ?_ ?_ h first start hfirst
  · intro _ first start hfirst
    exact Concatenation.Derives.single hfirst
  · intro _ _ second _ hsecond hothers first start hfirst
    obtain ⟨_, hblanks, hsecond⟩ := helement.nextRepetition hsecond
    exact Concatenation.Derives.cons hfirst hblanks (hothers second _ hsecond)

lemma concatenationOf_eq : concatenationOf element = (do
    let first ← repetitionOf element
    let others ← many (nextRepetition element)
    return first :: others) := rfl

lemma concatenationOf_eq_ok {input rest : List Octet} {value : Concatenation} :
    concatenationOf element input = .ok (value, rest) ↔
      ∃ first middle others, repetitionOf element input = .ok (first, middle) ∧
        many (nextRepetition element) middle = .ok (others, rest) ∧ first :: others = value := by
  simp only [concatenationOf_eq, bind_eq_ok, pure_eq_ok, Prod.mk.injEq]
  constructor
  · intro h
    obtain ⟨first, middle, hfirst, others, _, hothers, rfl, rfl⟩ := h
    exact ⟨first, middle, others, hfirst, hothers, rfl⟩
  · intro h
    obtain ⟨first, middle, others, hfirst, hothers, rfl⟩ := h
    exact ⟨first, middle, hfirst, others, rest, hothers, rfl, rfl⟩

lemma Sound.concatenationOf (helement : element.Sound) {input rest : List Octet}
    {value : Concatenation} (h : concatenationOf element input = .ok (value, rest)) :
    value.Derives input rest := by
  obtain ⟨first, middle, others, hfirst, hothers, rfl⟩ := concatenationOf_eq_ok.mp h
  exact helement.many_nextRepetition (helement.repetitionOf hfirst) hothers

/-- A branch that is not the first of its alternation. -/
def nextBranch (element : Reader Element) : Reader Concatenation := do
  blanks
  exactly .branchSlash '/'
  commit (do blanks; concatenationOf element)

lemma nextBranch_eq_ok {input rest : List Octet} {value : Concatenation} :
    nextBranch element input = .ok (value, rest) ↔
      ∃ middle start, Settles input ('/'.toUInt8 :: middle) ∧ Settles middle start ∧
        concatenationOf element start = .ok (value, rest) := by
  simp only [nextBranch, bind_eq_ok, commit_eq_ok, blanks_eq_ok, exactly_eq_ok]
  constructor
  · intro h
    obtain ⟨-, _, hstop, -, middle, rfl, -, start, hstart, hvalue⟩ := h
    exact ⟨middle, start, hstop, hstart, hvalue⟩
  · intro h
    obtain ⟨middle, start, hstop, hstart, hvalue⟩ := h
    exact ⟨(), _, hstop, (), middle, rfl, (), start, hstart, hvalue⟩

lemma Sound.shrinks_nextBranch (helement : element.Sound) :
    (nextBranch element).Shrinks := by
  intro _ _ _ h
  obtain ⟨middle, start, hstop, hstart, hvalue⟩ := nextBranch_eq_ok.mp h
  have hvalue := (helement.concatenationOf hvalue).length_lt
  have hstop := hstop.1.length_le
  have hstart := hstart.1.length_le
  simp only [List.length_cons] at hstop
  omega

lemma Sound.many_nextBranch (helement : element.Sound) {first : Concatenation}
    {others : List Concatenation} {start input rest : List Octet}
    (hfirst : first.Derives start input)
    (h : many (nextBranch element) input = .ok (others, rest)) :
    Alternation.Derives (first :: others) start rest := by
  -- As for concatenations, any first branch may end where the loop begins.
  refine many_induction (motive := fun input others => ∀ (first : Concatenation) start,
    first.Derives start input → Alternation.Derives (first :: others) start rest)
    helement.shrinks_nextBranch ?_ ?_ h first start hfirst
  · intro _ first start hfirst
    exact Alternation.Derives.single hfirst
  · intro _ _ second _ hsecond hothers first start hfirst
    obtain ⟨middle, start, hstop, hstart, hsecond⟩ := nextBranch_eq_ok.mp hsecond
    exact Alternation.Derives.cons hfirst hstop.1 hstart.1
      (hothers second start (helement.concatenationOf hsecond))

lemma alternationOf_eq : alternationOf element = (do
    let first ← concatenationOf element
    let others ← many (nextBranch element)
    return first :: others) := rfl

lemma alternationOf_eq_ok {input rest : List Octet} {value : Alternation} :
    alternationOf element input = .ok (value, rest) ↔
      ∃ first middle others, concatenationOf element input = .ok (first, middle) ∧
        many (nextBranch element) middle = .ok (others, rest) ∧ first :: others = value := by
  simp only [alternationOf_eq, bind_eq_ok, pure_eq_ok, Prod.mk.injEq]
  constructor
  · intro h
    obtain ⟨first, middle, hfirst, others, _, hothers, rfl, rfl⟩ := h
    exact ⟨first, middle, others, hfirst, hothers, rfl⟩
  · intro h
    obtain ⟨first, middle, others, hfirst, hothers, rfl⟩ := h
    exact ⟨first, middle, hfirst, others, rest, hothers, rfl, rfl⟩

lemma Sound.alternationOf (helement : element.Sound) {input rest : List Octet}
    {value : Alternation} (h : alternationOf element input = .ok (value, rest)) :
    value.Derives input rest := by
  obtain ⟨first, middle, others, hfirst, hothers, rfl⟩ := alternationOf_eq_ok.mp h
  exact helement.many_nextBranch (helement.concatenationOf hfirst) hothers

/-! ### Elements -/

lemma bracketed_eq_ok {opening closing : Char} {expected : Expected} {input rest : List Octet}
    {value : Alternation} :
    bracketed opening closing expected element input = .ok (value, rest) ↔
      ∃ inside start stop, input = opening.toUInt8 :: inside ∧ Settles inside start ∧
        alternationOf element start = .ok (value, stop) ∧
        Settles stop (closing.toUInt8 :: rest) := by
  simp only [bracketed, bind_eq_ok, commit_eq_ok, blanks_eq_ok, exactly_eq_ok, pure_eq_ok,
    Prod.mk.injEq]
  constructor
  · intro h
    obtain ⟨-, inside, rfl, -, start, hstart, _, stop, hvalue, -, _, hstop, -, _, rfl, rfl, rfl⟩ := h
    exact ⟨inside, start, stop, rfl, hstart, hvalue, hstop⟩
  · intro h
    obtain ⟨inside, start, stop, rfl, hstart, hvalue, hstop⟩ := h
    exact ⟨(), inside, rfl, (), start, hstart, value, stop, hvalue, (), _, hstop, (), rest, rfl, rfl,
      rfl⟩

lemma delimited_eq_ok {opening closing : Char} {start stop : Expected} {accepts : Octet → Bool}
    (hclosing : accepts closing.toUInt8 = false) {input rest value : List Octet} :
    delimited opening closing start stop accepts input = .ok (value, rest) ↔
      input = opening.toUInt8 :: (value ++ closing.toUInt8 :: rest) ∧
        ∀ octet ∈ value, accepts octet := by
  simp only [delimited, bind_eq_ok, commit_eq_ok, exactly_eq_ok, takeWhile_eq_ok, pure_eq_ok,
    Prod.mk.injEq]
  constructor
  · intro h
    obtain ⟨-, _, rfl, _, _, ⟨rfl, hoctets, -⟩, -, _, rfl, rfl, rfl⟩ := h
    exact ⟨rfl, hoctets⟩
  · intro h
    obtain ⟨rfl, hoctets⟩ := h
    exact ⟨(), _, rfl, value, _, ⟨rfl, hoctets, bars_cons hclosing⟩, (), rest, rfl, rfl, rfl⟩

lemma literal_eq_ok {input rest value : List Octet} :
    literal input = .ok (value, rest) ↔
      input = '"'.toUInt8 :: (value ++ '"'.toUInt8 :: rest) ∧
        ∀ octet ∈ value, octet.isQuotable :=
  delimited_eq_ok (by decide)

lemma prose_eq_ok {input rest value : List Octet} :
    prose input = .ok (value, rest) ↔
      input = '<'.toUInt8 :: (value ++ '>'.toUInt8 :: rest) ∧
        ∀ octet ∈ value, octet.isProse :=
  delimited_eq_ok (by decide)

/-- Elements of each kind have a reader of their own. -/
lemma elementOf_eq_ok {input rest : List Octet} {value : Element} :
    elementOf element input = .ok (value, rest) ↔
      match value with
      | .reference name => ruleName input = .ok (name, rest)
      | .group body => bracketed '(' ')' .closingParenthesis element input = .ok (body, rest)
      | .option body => bracketed '[' ']' .closingSquareBracket element input = .ok (body, rest)
      | .literal octets => literal input = .ok (octets, rest)
      | .numeric value => numeric input = .ok (value, rest)
      | .prose octets => prose input = .ok (octets, rest) := by
  constructor
  · intro h
    cases input with
    | nil => cases h
    | cons first others =>
      simp only [elementOf] at h
      -- Each kind of element has its branch, and no branch is left behind them.
      split_ifs at h
      iterate 6
        · obtain ⟨_, hvalue, rfl⟩ := map_eq_ok.mp h
          exact hvalue
  · intro h
    cases value with
    | reference name =>
      obtain ⟨⟨_, hfirst, _⟩, _⟩ := ruleName_eq_ok.mp h
      simp only [elementOf, hfirst, if_true]
      exact map_eq_ok.mpr ⟨_, h, rfl⟩
    | group body =>
      obtain ⟨_, _, _, rfl, _⟩ := bracketed_eq_ok.mp h
      exact map_eq_ok.mpr ⟨body, h, rfl⟩
    | option body =>
      obtain ⟨_, _, _, rfl, _⟩ := bracketed_eq_ok.mp h
      exact map_eq_ok.mpr ⟨body, h, rfl⟩
    | literal octets =>
      obtain ⟨rfl, _⟩ := literal_eq_ok.mp h
      exact map_eq_ok.mpr ⟨octets, h, rfl⟩
    | numeric value =>
      obtain ⟨_, _, rfl⟩ : ∃ letter others, input = '%'.toUInt8 :: letter :: others := by
        cases derives_of_numeric h with
        | sequence => exact ⟨_, _, rfl⟩
        | range => exact ⟨_, _, rfl⟩
      exact map_eq_ok.mpr ⟨value, h, rfl⟩
    | prose octets =>
      obtain ⟨rfl, _⟩ := prose_eq_ok.mp h
      exact map_eq_ok.mpr ⟨octets, h, rfl⟩

lemma Sound.elementOf (helement : element.Sound) : (elementOf element).Sound := by
  intro input value rest h
  rw [elementOf_eq_ok] at h
  cases value with
  | reference name => exact Element.Derives.reference (ruleName_eq_ok.mp h).1
  | group body =>
    obtain ⟨_, _, _, rfl, hstart, hbody, hstop⟩ := bracketed_eq_ok.mp h
    exact Element.Derives.group hstart.1 (helement.alternationOf hbody) hstop.1
  | option body =>
    obtain ⟨_, _, _, rfl, hstart, hbody, hstop⟩ := bracketed_eq_ok.mp h
    exact Element.Derives.option hstart.1 (helement.alternationOf hbody) hstop.1
  | literal octets =>
    obtain ⟨rfl, hoctets⟩ := literal_eq_ok.mp h
    exact Element.Derives.literal rest hoctets
  | numeric value => exact Element.Derives.numeric (derives_of_numeric h)
  | prose octets =>
    obtain ⟨rfl, hoctets⟩ := prose_eq_ok.mp h
    exact Element.Derives.prose rest hoctets

lemma sound_elementUpTo (depth : Nat) : (elementUpTo depth).Sound := by
  induction depth with
  | zero =>
    intro _ _ _ h
    cases h
  | succ depth ih => exact ih.elementOf

end Reader

end AugmentedBnf
