import AugmentedBnf.Proofs.Reader.DocumentInStep

/-!
# Reading makes progress

Every turn of a loop takes something off the input, and elements inside of an element are read
behind its bracket. So the bounds on turns and on nesting are never met: the length of the input is
bound enough, and more makes no difference. Hence it is never reported that progress was expected.

* `Reader.elementOf_congr`: an element depends on its inner elements at shorter inputs only.
* `Reader.eq_anyElement_iff`: there is one way to read elements of any nesting.
* `Reader.Explains`: failures tell what is missing, and not only that progress is.
* `Reader.reading_makes_progress`: all of this together.
-/

namespace AugmentedBnf

namespace Reader

variable {α β : Type}

lemma shrinks_exactly (expected : Expected) (char : Char) : (exactly expected char).Shrinks := by
  intro input value rest h
  rw [exactly_eq_ok.mp h]
  exact Nat.lt_succ_self rest.length

lemma shrinks_definition : definition.Shrinks :=
  fun _ _ _ h => (derives_of_definition h).length_lt

lemma shrinks_emptyLine : emptyLine.Shrinks := fun _ _ _ h => emptyLine_length_lt h

/-- What comes behind something that is taken is given a shorter input. -/
lemma Shrinks.bind_congr {reader : Reader α} (hreader : reader.Shrinks) {input : List Octet}
    {next next' : α × List Octet → Except Mismatch β}
    (hnext : ∀ value rest, rest.length < input.length → next (value, rest) = next' (value, rest)) :
    reader input >>= next = reader input >>= next' := by
  cases hread : reader input with
  | error => rfl
  | ok result => exact hnext result.1 result.2 (hreader _ _ _ hread)

/-- More turns than there are octets left make no difference. -/
lemma definitionsUpTo_eq (length turns more : Nat) (rest : List Octet)
    (hturns : rest.length ≤ turns) (hmore : rest.length ≤ more) :
    definitionsUpTo length turns rest = definitionsUpTo length more rest := by
  -- Both bounds go down together: what is behind a line is shorter than what begins with it.
  induction turns generalizing more rest with
  | zero =>
    obtain rfl := List.eq_nil_of_length_eq_zero (Nat.le_zero.mp hturns)
    simp only [definitionsUpTo]
  | succ turns ih =>
    cases rest with
    | nil => simp only [definitionsUpTo]
    | cons first others =>
      cases more with
      | zero => cases hmore
      | succ more =>
        rw [List.length_cons] at hturns hmore
        have hothers : ∀ behind : List Octet, behind.length < (first :: others).length →
            definitionsUpTo length turns behind = definitionsUpTo length more behind := by
          intro behind hbehind
          rw [List.length_cons] at hbehind
          exact ih more behind (by omega) (by omega)
        simp only [definitionsUpTo]
        split_ifs
        · refine shrinks_definition.bind_congr fun rule behind hbehind => ?_
          simp only [hothers behind hbehind]
        · exact shrinks_emptyLine.bind_congr fun _ behind hbehind => hothers behind hbehind

/-! ### Readers that agree on short inputs -/

def AgreeBelow (length : Nat) (reader reader' : Reader α) : Prop :=
  ∀ input, input.length < length → reader input = reader' input

namespace AgreeBelow

variable {length : Nat} {reader reader' : Reader α} {next next' : α → Reader β}

lemma refl (reader : Reader α) : AgreeBelow length reader reader := fun _ _ => rfl

lemma bind (h : AgreeBelow length reader reader') (hreader : reader.Recedes)
    (hnext : ∀ value, AgreeBelow length (next value) (next' value)) :
    AgreeBelow length (reader >>= next) (reader' >>= next') := by
  intro input hinput
  simp only [Bind.bind, StateT.bind]
  rw [← h input hinput]
  cases hread : reader input with
  | error => rfl
  | ok result =>
    have hrest := (hreader.suffix_of_ok hread).length_le
    -- The next reader runs on a suffix, so the two still agree there.
    exact hnext result.1 result.2 (hrest.trans_lt hinput)

lemma commit (h : AgreeBelow length reader reader') :
    AgreeBelow length (commit reader) (commit reader') := by
  intro input hinput
  rw [Reader.commit, Reader.commit, h input hinput]

lemma manyUpTo (h : AgreeBelow length reader reader') (hreader : reader.Recedes) (turns : Nat) :
    AgreeBelow length (manyUpTo reader turns) (manyUpTo reader' turns) := by
  induction turns with
  | zero => exact .refl _
  | succ turns ih =>
    intro input hinput
    simp only [Reader.manyUpTo]
    rw [← h input hinput]
    cases hread : reader input with
    | error => rfl
    | ok result =>
      have hrest := (hreader.suffix_of_ok hread).length_le
      simp only
      rw [ih result.2 (hrest.trans_lt hinput)]

lemma many (h : AgreeBelow length reader reader') (hreader : reader.Recedes) :
    AgreeBelow length (many reader) (many reader') :=
  fun input hinput => h.manyUpTo hreader (input.length + 1) input hinput

end AgreeBelow

section

variable {length : Nat} {element element' : Reader Element}

lemma AgreeBelow.repetitionOf (h : AgreeBelow length element element')
    (helement : element.Recedes) :
    AgreeBelow length (repetitionOf element) (repetitionOf element') := by
  refine (refl (optional bounds)).bind recedes_bounds.optional fun bounds => ?_
  exact h.bind helement fun element => refl _

lemma AgreeBelow.nextRepetition (h : AgreeBelow length element element')
    (helement : element.Recedes) :
    AgreeBelow length (nextRepetition element) (nextRepetition element') :=
  (refl (many1 blank)).bind recedes_blank.many1 fun _ => h.repetitionOf helement

lemma AgreeBelow.concatenationOf (h : AgreeBelow length element element')
    (helement : element.Recedes) :
    AgreeBelow length (concatenationOf element) (concatenationOf element') := by
  have hothers : AgreeBelow length (Reader.many (Reader.nextRepetition element))
      -- The loop runs on its whole input again, so agreement has to be lifted to it first.
      (Reader.many (Reader.nextRepetition element')) :=
    (h.nextRepetition helement).many helement.nextRepetition
  refine (h.repetitionOf helement).bind helement.repetitionOf fun first => ?_
  exact hothers.bind helement.nextRepetition.many fun others => refl _

lemma AgreeBelow.nextBranch (h : AgreeBelow length element element')
    (helement : element.Recedes) :
    AgreeBelow length (nextBranch element) (nextBranch element') := by
  refine (refl blanks).bind recedes_blanks fun _ => ?_
  refine (refl (exactly .branchSlash '/')).bind (recedes_exactly _ _) fun _ => AgreeBelow.commit ?_
  exact (refl blanks).bind recedes_blanks fun _ => h.concatenationOf helement

lemma AgreeBelow.alternationOf (h : AgreeBelow length element element')
    (helement : element.Recedes) :
    AgreeBelow length (alternationOf element) (alternationOf element') := by
  have hothers : AgreeBelow length (Reader.many (Reader.nextBranch element))
      (Reader.many (Reader.nextBranch element')) :=
    (h.nextBranch helement).many helement.nextBranch
  refine (h.concatenationOf helement).bind helement.concatenationOf fun first => ?_
  exact hothers.bind helement.nextBranch.many fun others => refl _

variable {input : List Octet}

/-- The elements between brackets are behind the opening one. -/
lemma bracketed_congr (h : AgreeBelow input.length element element') (helement : element.Recedes)
    (opening closing : Char) (expected : Expected) :
    bracketed opening closing expected element input =
      bracketed opening closing expected element' input := by
  -- `bind_congr` drops to the shorter input here; the rest of the brackets only recedes.
  refine (shrinks_exactly .openingBracket opening).bind_congr fun _ => AgreeBelow.commit ?_
  refine (AgreeBelow.refl blanks).bind recedes_blanks fun _ => ?_
  exact (h.alternationOf helement).bind helement.alternationOf fun body => .refl _

/-- An element depends on its inner elements at shorter inputs only. -/
lemma elementOf_congr (h : AgreeBelow input.length element element') (helement : element.Recedes) :
    elementOf element input = elementOf element' input := by
  cases input with
  | nil => rfl
  | cons first rest =>
    simp only [elementOf, Functor.map, StateT.map]
    rw [bracketed_congr h helement, bracketed_congr h helement]

end

/-- An element with any nesting. -/
def anyElement : Reader Element := fun input => elementUpTo input.length input

/-- More depth than there are octets makes no difference. -/
lemma elementUpTo_eq {depth : Nat} {input : List Octet} (hdepth : input.length ≤ depth) :
    elementUpTo depth input = anyElement input := by
  -- On the length of the input, since the depth given to the elements inside is another one.
  induction hlength : input.length using Nat.strong_induction_on generalizing depth input with
  | _ length ih =>
    cases input with
    | nil => rw [anyElement, elementUpTo_nil, elementUpTo_nil]
    | cons first rest =>
      cases depth with
      | zero => cases hdepth
      | succ depth =>
        rw [List.length_cons] at hdepth hlength
        refine elementOf_congr (fun shorter hshorter => ?_) (recedes_elementUpTo depth)
        rw [List.length_cons] at hshorter
        rw [ih _ (by omega) (by omega) rfl, ih _ (by omega) (by omega) rfl]

lemma recedes_anyElement : anyElement.Recedes := fun input => recedes_elementUpTo input.length input

/-- How elements are read does not speak of depth. -/
lemma elementOf_anyElement : elementOf anyElement = anyElement := by
  funext input
  rw [← elementUpTo_eq (Nat.le_succ input.length), elementUpTo]
  refine elementOf_congr (fun shorter hshorter => ?_) recedes_anyElement
  rw [elementUpTo_eq hshorter.le]

/-- There is one way only to read elements by reading the elements inside of them. -/
lemma eq_anyElement_iff {element : Reader Element} :
    elementOf element = element ↔ element = anyElement := by
  constructor
  · intro h
    funext input
    -- Both readers agree on the inner elements already, whose inputs are shorter.
    induction hlength : input.length using Nat.strong_induction_on generalizing input with
    | _ length ih =>
      rw [← h, ← elementOf_anyElement]
      refine (elementOf_congr (fun shorter hshorter => ?_) recedes_anyElement).symm
      exact (ih _ (hlength ▸ hshorter) shorter rfl).symm
  · rintro rfl
    exact elementOf_anyElement

lemma alternation_eq : alternation = alternationOf anyElement := by
  funext input
  have h : AgreeBelow (input.length + 1) (elementUpTo input.length) anyElement :=
    fun shorter hshorter => elementUpTo_eq (Nat.lt_succ_iff.mp hshorter)
  exact h.alternationOf (recedes_elementUpTo input.length) input (Nat.lt_succ_self _)

/-! ### What is missing -/

/-- Failures of the reader tell what is missing, and not that there was no progress. -/
def Explains (reader : Reader α) : Prop :=
  ∀ input mismatch, reader input = .error mismatch → mismatch.expected ≠ .progress

lemma explains_pure (value : α) : (pure value : Reader α).Explains :=
  fun _ _ h => absurd h pure_ne_error

lemma Explains.bind {reader : Reader α} {next : α → Reader β} (hreader : reader.Explains)
    (hnext : ∀ value, (next value).Explains) : (reader >>= next).Explains := by
  intro input mismatch h
  obtain h | ⟨value, middle, -, h⟩ := bind_eq_error.mp h
  · exact hreader _ _ h
  · exact hnext value _ _ h

lemma Explains.map {reader : Reader α} (hreader : reader.Explains) (f : α → β) :
    (f <$> reader).Explains :=
  fun _ _ h => hreader _ _ (map_eq_error.mp h)

lemma explains_octet {expected : Expected} (accepts : Octet → Bool)
    (hexpected : expected ≠ .progress) : (octet expected accepts).Explains := by
  intro input mismatch h
  cases input with
  | nil =>
    cases h
    exact hexpected
  | cons first rest =>
    simp only [octet] at h
    split_ifs at h
    cases h
    exact hexpected

lemma explains_exactly {expected : Expected} (char : Char)
    (hexpected : expected ≠ .progress) : (exactly expected char).Explains :=
  (explains_octet _ hexpected).bind fun _ => explains_pure ()

lemma explains_takeWhile (accepts : Octet → Bool) : (takeWhile accepts).Explains := by
  intro input mismatch h
  cases h

lemma explains_endOfInput : endOfInput.Explains := by
  intro input mismatch h
  cases input <;> cases h
  simp

lemma Explains.or {first second : Reader α} (hfirst : first.Explains)
    (hsecond : second.Explains) : (or first second).Explains :=
  fun _ _ h => (or_eq_error h).elim (hfirst _ _) (hsecond _ _)

lemma Explains.optional {reader : Reader α} (hreader : reader.Explains) :
    (optional reader).Explains :=
  fun _ _ h => hreader _ _ (optional_eq_error h).1

lemma Explains.commit {reader : Reader α} (hreader : reader.Explains) :
    (commit reader).Explains := by
  intro input mismatch h
  simp only [Reader.commit] at h
  cases hread : reader input with
  | ok => simp [hread] at h
  | error other =>
    simp only [hread, Except.error.injEq] at h
    subst h
    exact hreader input other hread

lemma Explains.label {reader : Reader α} (hreader : reader.Explains) {expected : Expected}
    (hexpected : expected ≠ .progress) : (label expected reader).Explains := by
  intro input mismatch h
  simp only [Reader.label] at h
  cases hread : reader input with
  | ok => simp [hread] at h
  | error other =>
    simp only [hread] at h
    split_ifs at h
    · cases h
      exact hexpected
    · cases h
      exact hreader _ _ hread

/-- A loop whose turns all take something never lacks progress. -/
lemma Explains.many {reader : Reader α} (hreader : reader.Explains) (hshrinks : reader.Shrinks) :
    (many reader).Explains := by
  intro input mismatch h
  exact many_error_induction (motive := fun _ => mismatch.expected ≠ .progress) hshrinks
    (fun herror _ => hreader _ _ herror) (fun _ hbehind => hbehind) h

lemma Explains.many1 {reader : Reader α} (hreader : reader.Explains) (hshrinks : reader.Shrinks) :
    (many1 reader).Explains :=
  hreader.bind fun _ => (hreader.many hshrinks).bind fun _ => explains_pure _

lemma explains_lineBreak : lineBreak.Explains := by
  refine Explains.or ?_ (explains_exactly _ (by simp))
  exact (explains_exactly _ (by simp)).bind fun _ => explains_exactly _ (by simp)

lemma explains_commentOrLineBreak : commentOrLineBreak.Explains := by
  have hcomment : comment.Explains := by
    refine (explains_exactly _ (by simp)).bind fun _ => ?_
    exact (explains_takeWhile _).bind fun _ => explains_lineBreak.or explains_endOfInput
  exact (hcomment.or explains_lineBreak).label (by simp)

lemma explains_blank : blank.Explains := by
  have hwhiteSpace : whiteSpace.Explains :=
    (explains_octet _ (by simp)).bind fun _ => explains_pure ()
  exact hwhiteSpace.or (explains_commentOrLineBreak.bind fun _ => hwhiteSpace)

lemma explains_blanks : blanks.Explains :=
  (explains_blank.many shrinks_blank).bind fun _ => explains_pure ()

lemma explains_ruleName : ruleName.Explains := by
  refine (explains_octet _ (by simp)).bind fun first => ?_
  exact (explains_takeWhile _).bind fun rest => explains_pure _

lemma explains_number (radix : Radix) : (number radix).Explains := by
  intro input mismatch h
  simp only [number] at h
  split at h
  · cases h
    cases radix <;> simp [expectedDigit]
  · split_ifs at h
    cases h
    simp

lemma explains_bounds : bounds.Explains := by
  intro input mismatch h
  simp only [bounds, AugmentedBnf.bind_eq_error, Prod.exists] at h
  obtain h | ⟨min, middle, -, h | ⟨star, behind, -, h⟩⟩ := h
  · exact (explains_number .decimal).optional _ _ h
  · exact (explains_exactly _ (by simp)).optional _ _ h
  · split at h
    · cases h
    · obtain h | ⟨_, -, h⟩ := AugmentedBnf.bind_eq_error.mp h
      · exact (explains_number .decimal).optional _ _ h
      · cases h
    · cases h
      simp

lemma explains_delimited {start stop : Expected} (opening closing : Char)
    (accepts : Octet → Bool) (hstart : start ≠ .progress)
    (hstop : stop ≠ .progress) :
    (delimited opening closing start stop accepts).Explains := by
  refine (explains_exactly _ hstart).bind fun _ => Explains.commit ?_
  refine (explains_takeWhile _).bind fun octets => ?_
  exact (explains_exactly _ hstop).bind fun _ => explains_pure _

lemma explains_radix : radix.Explains := by
  intro input mismatch h
  cases input with
  | nil =>
    cases h
    simp
  | cons first rest =>
    simp only [radix] at h
    split at h
    · cases h
    · cases h
      simp

lemma explains_numeric : numeric.Explains := by
  have hbehind : ∀ {expected : Expected} (char : Char) (radix : Radix), expected ≠ .progress →
      (numberBehind expected char radix).Explains := fun char radix hexpected =>
    (explains_exactly char hexpected).bind fun _ => explains_number radix
  rw [numeric_eq]
  refine (explains_exactly _ (by simp)).bind fun _ => Explains.commit ?_
  refine explains_radix.bind fun radix => (explains_number radix).bind fun first => ?_
  have hothers : (many (numberBehind .sequenceDot '.' radix)).Explains :=
    (hbehind '.' radix (by simp)).many (shrinks_dottedNumber radix)
  refine hothers.bind fun others => ?_
  split_ifs
  · exact explains_pure _
  · refine (hbehind '-' radix (by simp)).optional.bind fun upper => ?_
    split
    · exact explains_pure _
    · exact explains_pure _

section

variable {element : Reader Element}

lemma Explains.repetitionOf (helement : element.Explains) : (repetitionOf element).Explains := by
  refine explains_bounds.optional.bind fun bounds => ?_
  exact helement.bind fun element => explains_pure _

lemma Explains.concatenationOf (helement : element.Explains) (hsound : element.Sound) :
    (concatenationOf element).Explains := by
  have hnext : (nextRepetition element).Explains :=
    (explains_blank.many1 shrinks_blank).bind fun _ => helement.repetitionOf
  refine helement.repetitionOf.bind fun first => ?_
  exact (hnext.many hsound.shrinks_nextRepetition).bind fun others => explains_pure _

lemma Explains.alternationOf (helement : element.Explains) (hsound : element.Sound) :
    (alternationOf element).Explains := by
  have hbranch := helement.concatenationOf hsound
  have hnext : (nextBranch element).Explains := by
    refine explains_blanks.bind fun _ => ?_
    refine (explains_exactly _ (by simp)).bind fun _ => Explains.commit ?_
    exact explains_blanks.bind fun _ => hbranch
  refine hbranch.bind fun first => ?_
  exact (hnext.many hsound.shrinks_nextBranch).bind fun others => explains_pure _

lemma Explains.bracketed (helement : element.Explains) (hsound : element.Sound)
    {expected : Expected} (opening closing : Char)
    (hexpected : expected ≠ .progress) :
    (bracketed opening closing expected element).Explains := by
  have hclosing : ∀ body : Alternation,
      (do blanks; exactly expected closing; return body : Reader Alternation).Explains := by
    intro body
    refine explains_blanks.bind fun _ => ?_
    exact (explains_exactly _ hexpected).bind fun _ => explains_pure body
  refine (explains_exactly _ (by simp)).bind fun _ => Explains.commit ?_
  refine explains_blanks.bind fun _ => ?_
  exact (helement.alternationOf hsound).bind hclosing

lemma Explains.elementOf (helement : element.Explains) (hsound : element.Sound) :
    (elementOf element).Explains := by
  intro input mismatch h
  cases input with
  | nil =>
    cases h
    simp
  | cons first rest =>
    simp only [Reader.elementOf] at h
    split_ifs at h
    · exact (explains_ruleName.map _) _ _ h
    · exact ((helement.bracketed hsound _ _ (by simp)).map _) _ _ h
    · exact ((helement.bracketed hsound _ _ (by simp)).map _) _ _ h
    · exact ((explains_delimited _ _ _ (by simp) (by simp)).map _) _ _ h
    · exact (explains_numeric.map _) _ _ h
    · exact ((explains_delimited _ _ _ (by simp) (by simp)).map _) _ _ h
    · cases h
      simp

end

lemma explains_elementUpTo (depth : Nat) : (elementUpTo depth).Explains := by
  induction depth with
  | zero =>
    intro input mismatch h
    cases h
    simp
  | succ depth ih => exact ih.elementOf (sound_elementUpTo depth)

lemma explains_body : body.Explains := by
  have halternation : alternation.Explains := fun input =>
    (explains_elementUpTo _).alternationOf (sound_elementUpTo _) input
  refine halternation.bind fun body => ?_
  exact explains_blanks.bind fun _ => explains_pure body

lemma explains_definition : definition.Explains := by
  have hmarker : marker.Explains := by
    refine explains_blanks.bind fun _ => ?_
    refine (explains_exactly _ (by simp)).bind fun _ => ?_
    refine (explains_exactly _ (by simp)).optional.bind fun slash => ?_
    exact explains_blanks.bind fun _ => explains_pure _
  have hend : (label .commentOrLineBreak (or commentOrLineBreak endOfInput)).Explains :=
    (explains_commentOrLineBreak.or explains_endOfInput).label (by simp)
  refine explains_ruleName.bind fun name => Explains.commit ?_
  refine hmarker.bind fun marker => ?_
  refine explains_body.bind fun body => ?_
  exact hend.bind fun _ => explains_pure _

lemma explains_emptyLine : emptyLine.Explains :=
  (explains_blanks.bind fun _ => explains_commentOrLineBreak).label (by simp)

lemma explains_definitionsUpTo {length turns : Nat} {rest : List Octet} {mismatch : Mismatch}
    (hturns : rest.length ≤ turns) (h : definitionsUpTo length turns rest = .error mismatch) :
    mismatch.expected ≠ .progress := by
  induction turns generalizing rest with
  | zero =>
    obtain rfl := List.eq_nil_of_length_eq_zero (Nat.le_zero.mp hturns)
    simp [definitionsUpTo] at h
  | succ turns ih =>
    cases rest with
    | nil => simp [definitionsUpTo] at h
    | cons first others =>
      rw [List.length_cons] at hturns
      simp only [definitionsUpTo] at h
      split_ifs at h
      · obtain h | ⟨result, hread, h⟩ := AugmentedBnf.bind_eq_error.mp h
        · exact explains_definition _ _ h
        · have hbehind := shrinks_definition _ _ _ hread
          rw [List.length_cons] at hbehind
          obtain h | ⟨_, -, h⟩ := AugmentedBnf.bind_eq_error.mp h
          · exact ih (by omega) h
          · cases h
      · obtain h | ⟨result, hread, h⟩ := AugmentedBnf.bind_eq_error.mp h
        · exact explains_emptyLine _ _ h
        · have hbehind := shrinks_emptyLine _ _ _ hread
          rw [List.length_cons] at hbehind
          exact ih (by omega) h

end Reader

/-- No text but that of progress stands for a loop without progress or for input yet to come. -/
lemma Expected.text_ne {expected : Expected} (h : expected ≠ .progress) :
    expected.text ≠ "well-formed grammar" ∧ expected.text ≠ "more input" := by
  cases expected with
  | progress => exact absurd rfl h
  | _ => simp [text]

lemma Grammar.expected_read {document : List Octet} {expected : Expected} {actual : Option Octet}
    {position : Position} (h : read document = .error (.mismatch expected actual position)) :
    expected ≠ .progress := by
  unfold read at h
  split at h
  · next mismatch hread =>
    cases h
    exact Reader.explains_definitionsUpTo le_rfl hread
  · split at h <;> cases h

lemma Alternation.expected_read {octets : List Octet} {expected : Expected} {actual : Option Octet}
    {position : Position} (h : read octets = .error (.mismatch expected actual position)) :
    expected ≠ .progress := by
  have hwhole : (do let body ← Reader.body; Reader.endOfInput; return body : Reader _).Explains := by
    refine Reader.explains_body.bind fun body => ?_
    exact Reader.explains_endOfInput.bind fun _ => Reader.explains_pure body
  unfold read at h
  split at h
  · cases h
  · next mismatch hread =>
    cases h
    exact hwhole _ _ hread

namespace Reader

/-- The readers that are run in loops inside of definitions and bodies. -/
inductive IsIterated : ∀ {α : Type}, Reader α → Prop
  | blank : IsIterated blank
  | dottedNumber (radix : Radix) : IsIterated (do exactly .sequenceDot '.'; number radix)
  | nextRepetition (depth : Nat) : IsIterated (nextRepetition (elementUpTo depth))
  | nextBranch (depth : Nat) : IsIterated (nextBranch (elementUpTo depth))

lemma IsIterated.shrinks {α : Type} {reader : Reader α} (h : IsIterated reader) :
    reader.Shrinks := by
  cases h with
  | blank => exact shrinks_blank
  | dottedNumber radix => exact shrinks_dottedNumber radix
  | nextRepetition depth => exact (sound_elementUpTo depth).shrinks_nextRepetition
  | nextBranch depth => exact (sound_elementUpTo depth).shrinks_nextBranch

/-- Every turn of the loop over the lines of a document takes something, and so does every turn of
the loops inside of bodies, which are those of blanks, of numeric values, of concatenations and of
alternations. An element inside of another one is read from a shorter input, so that
there is one way only to read elements by reading the elements inside of them, and bodies are read
in this way. No bound on turns or on nesting is ever met, and no error speaks of a lack of progress
or of input yet to come. -/
theorem reading_makes_progress :
    (definition.Shrinks ∧ emptyLine.Shrinks ∧
      ∀ length turns rest, rest.length ≤ turns →
        definitionsUpTo length turns rest = definitionsUpTo length rest.length rest) ∧
    (∀ {α : Type} (reader : Reader α), IsIterated reader → reader.Shrinks ∧
      ∀ turns input, input.length < turns → manyUpTo reader turns input = many reader input) ∧
    (blanks = (do let _ ← many blank) ∧
      (many1 blank = do let first ← blank; let others ← many blank; return first :: others) ∧
      (∃ next : Radix → UInt32 → List UInt32 → Reader Numeric, numeric = do
        exactly .percentSign '%'
        commit do
          let radix ← radix
          let first ← number radix
          let others ← many (do exactly .sequenceDot '.'; number radix)
          next radix first others) ∧
      ∀ element, concatenationOf element = (do
          let first ← repetitionOf element
          let others ← many (nextRepetition element)
          return first :: others) ∧
        alternationOf element = (do
          let first ← concatenationOf element
          let others ← many (nextBranch element)
          return first :: others)) ∧
    ((∀ (inner : Reader Element) input,
        (∀ shorter, shorter.length < input.length → inner shorter = anyElement shorter) →
        elementOf inner input = anyElement input) ∧
      (∀ element, elementOf element = element ↔ element = anyElement) ∧
      alternation = alternationOf anyElement ∧
      ∀ depth input, input.length ≤ depth → elementUpTo depth input = anyElement input) ∧
    ∀ octets expected actual position,
      Grammar.read octets = .error (.mismatch expected actual position) ∨
        Alternation.read octets = .error (.mismatch expected actual position) →
      expected.text ≠ "well-formed grammar" ∧ expected.text ≠ "more input" := by
  refine ⟨⟨shrinks_definition, shrinks_emptyLine, fun length turns rest hturns => ?_⟩,
    fun reader hreader => ⟨hreader.shrinks, fun turns input hturns => ?_⟩,
    ⟨rfl, rfl, ⟨_, rfl⟩, fun element => ⟨rfl, rfl⟩⟩,
    ⟨fun inner input hinner => ?_, fun element => eq_anyElement_iff, alternation_eq,
      fun depth input => elementUpTo_eq⟩,
    fun octets expected actual position h => Expected.text_ne ?_⟩
  · exact definitionsUpTo_eq length turns rest.length rest hturns le_rfl
  · exact manyUpTo_eq hreader.shrinks _ _ input hturns (Nat.lt_succ_self _)
  · rw [← elementOf_anyElement]
    exact (elementOf_congr (fun shorter hshorter => (hinner shorter hshorter).symm)
      recedes_anyElement).symm
  · exact h.elim Grammar.expected_read Alternation.expected_read

end Reader

end AugmentedBnf
