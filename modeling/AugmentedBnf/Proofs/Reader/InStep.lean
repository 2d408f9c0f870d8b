import AugmentedBnf.Proofs.Reader.Remainder

/-!
# Two runs in step

A reader that is run on two inputs does the same on both as long as it does not come to where they
differ. The lemmas here follow the two runs through the ways to put readers together, and through
the readers that give nothing back.

A run may look at octets past the place up to which the inputs are followed, find them unfit and take
another way that leaves them alone. It then gives back what it has looked at, and the other run may
do something else.

* `Simulation`: inputs that belong together, and what readers rely on to keep them together.
* `InStep`: two runs have ended alike, or the first one has come past what is followed.
* `InStep.many`: repetitions stay in step up to a turn that gives something back.
-/

namespace AugmentedBnf

open Reader

def Octet.isBreak (octet : Octet) : Bool := octet == '\r'.toUInt8 || octet == '\n'.toUInt8

lemma Octet.forall_isBreak {p : Octet → Prop} :
    (∀ octet : Octet, octet.isBreak → p octet) ↔ p '\r'.toUInt8 ∧ p '\n'.toUInt8 := by
  simp [Octet.isBreak, or_imp, forall_and]

variable {α β : Type}

section

variable (R : List Octet → List Octet → Prop) (Past : List Octet → Prop)

/-- Two runs have ended in step: alike, where their inputs belong together, or the first one past what
is followed. It is also past where a number is too large because of digits that are. -/
inductive InStep :
    Except Mismatch (α × List Octet) → Except Mismatch (α × List Octet) → Prop where
  | ok {rest rest'} (value : α) (h : R rest rest') : InStep (.ok (value, rest)) (.ok (value, rest'))
  | error {rest rest'} (expected : Expected) (committed : Bool) (h : R rest rest') :
      InStep (.error ⟨expected, rest, committed⟩) (.error ⟨expected, rest', committed⟩)
  | past {outcome outcome'} (h : Past (remainder outcome)) : InStep outcome outcome'
  | overflow {rest outcome'} (h : Past []) : InStep (.error ⟨.wordValue, rest, true⟩) outcome'

/-- The reader looks at octets past what is followed, and then leaves other ways open. -/
def Reader.GivesBack (reader : Reader α) (input : List Octet) : Prop :=
  ∃ mismatch, reader input = .error mismatch ∧ mismatch.committed = false ∧ Past mismatch.rest

/-- Blanks come to an end here, and need not where another input goes on otherwise: they have come
past what is followed, or have looked there. -/
def Stalls (input : List Octet) : Prop := Past input ∨ Reader.blank.GivesBack Past input

/-- Inputs of two runs that belong together, and inputs of the first run past what is followed. Inputs
that belong together begin alike, but for what they break their lines with. -/
structure Simulation : Prop where
  nil {input'} (h : R [] input') : input' = []
  cons {first rest input'} (h : R (first :: rest) input') (hfirst : first.isBreak = false) :
    ∃ rest', input' = first :: rest' ∧ (R rest rest' ∨ Past rest)
  cons_break {first rest input'} (h : R (first :: rest) input') (hfirst : first.isBreak) :
    ∃ first' rest', input' = first' :: rest' ∧ first'.isBreak
  lineBreak {input input'} (h : R input input') :
    InStep R Past (lineBreak input) (lineBreak input')
  length_lt_iff {input input' other other'} (h : R input input') (hother : R other other') :
    other.length < input.length ↔ other'.length < input'.length
  not_past {input input'} (h : R input input') : ¬ Past input
  past_of_le {input rest} (h : Past input) (hle : rest.length ≤ input.length) : Past rest

end

lemma Reader.many_of_error {reader : Reader α} {input : List Octet} {mismatch : Mismatch}
    (h : reader input = .error mismatch) :
    many reader input = if mismatch.committed then .error mismatch else .ok ([], input) := by
  simp only [many, manyUpTo, h]

lemma Reader.whiteSpace_eq_error {mismatch : Mismatch} {input : List Octet}
    (h : whiteSpace input = .error mismatch) : mismatch.rest = input := by
  obtain h | ⟨_, _, -, h⟩ := Reader.bind_eq_error.mp h
  · exact octet_eq_error h
  · exact absurd h pure_ne_error

variable {R R' : List Octet → List Octet → Prop} {Past : List Octet → Prop}
  {input input' : List Octet}

lemma InStep.mono {outcome outcome' : Except Mismatch (α × List Octet)}
    (hR : ∀ {rest rest'}, R rest rest' → R' rest rest') (h : InStep R Past outcome outcome') :
    InStep R' Past outcome outcome' := by
  cases h with
  | ok value h => exact .ok value (hR h)
  | error expected committed h => exact .error expected committed (hR h)
  | past h => exact .past h
  | overflow h => exact .overflow h

lemma InStep.commit {reader reader' : Reader α} (hreader : InStep R Past (reader input) (reader' input')) :
    InStep R Past (commit reader input) (commit reader' input') := by
  simp only [Reader.commit]
  generalize reader input = outcome at hreader
  generalize reader' input' = outcome' at hreader
  cases hreader with
  | ok value h => exact .ok value h
  | overflow h => exact .overflow h
  | error expected committed h => exact .error expected true h
  | past hpast =>
    refine .past ?_
    cases outcome <;> exact hpast

/-- A value may be missing because something is given back. -/
lemma InStep.optional {reader : Reader α} (h : R input input')
    (hreader : InStep R Past (reader input) (reader input')) :
    InStep R Past (Reader.optional reader input) (Reader.optional reader input') ∨
      Reader.optional reader input = .ok (none, input) ∧ reader.GivesBack Past input := by
  simp only [Reader.optional]
  generalize hread : reader input = outcome at hreader
  generalize reader input' = outcome' at hreader
  cases hreader with
  | ok value h => exact .inl (.ok _ h)
  | overflow h => exact .inl (.overflow h)
  | error expected committed h' =>
    cases committed with
    | true => exact .inl (.error expected true h')
    | false => exact .inl (.ok none h)
  -- The mismatch is past: `optional` hands it on if it is committed, and else gives it back.
  | past hpast =>
    cases outcome with
    | ok => exact .inl (.past hpast)
    | error mismatch =>
      cases hcommitted : mismatch.committed with
      | true =>
        simp only [hcommitted, if_true]
        exact .inl (.past hpast)
      | false => exact .inr ⟨by simp [hcommitted], mismatch, hread, hcommitted, hpast⟩

lemma InStep.bind {outcome outcome' : Except Mismatch (α × List Octet)}
    {next next' : α × List Octet → Except Mismatch (β × List Octet)}
    (h : InStep R Past outcome outcome')
    (hpast : ∀ {value rest}, outcome = .ok (value, rest) → Past rest →
      Past (remainder (next (value, rest))))
    (hnext : ∀ {value rest rest'}, outcome = .ok (value, rest) → R rest rest' →
      InStep R Past (next (value, rest)) (next' (value, rest'))) :
    InStep R Past (outcome >>= next) (outcome' >>= next') := by
  cases h with
  | ok value h => exact hnext rfl h
  | error expected committed h => exact .error expected committed h
  | overflow h => exact .overflow h
  | past h =>
    refine .past ?_
    cases outcome with
    | error => exact h
    | ok => exact hpast rfl h

lemma InStep.prepend {outcome outcome' : Except Mismatch (List α × List Octet)} (value : α)
    (h : InStep R Past outcome outcome') :
    InStep R Past (outcome.map fun (values, rest) => (value :: values, rest))
      (outcome'.map fun (values, rest) => (value :: values, rest)) := by
  cases h with
  | ok values h => exact .ok (value :: values) h
  | error expected committed h => exact .error expected committed h
  | overflow h => exact .overflow h
  | past h =>
    refine .past ?_
    cases outcome <;> exact h

/-- Behind a minimum there is nothing to miss. -/
lemma Reader.bounds_suffix {input middle : List Octet} {min : UInt32}
    (hmin : Reader.optional (number .decimal) input = .ok (some min, middle)) :
    remainder (bounds input) <:+ middle := by
  have hstar := (recedes_exactly .repeatStar '*').optional middle
  simp only [bounds, hmin, bind, Except.bind]
  cases h : Reader.optional (exactly .repeatStar '*') middle with
  | error => rwa [h] at hstar
  | ok result =>
    obtain ⟨star, behind⟩ := result
    rw [h] at hstar
    cases star with
    | none => exact hstar
    | some =>
      refine List.IsSuffix.trans ?_ hstar
      exact (recedes_number .decimal).optional.bind
        (fun max => recedes_pure (Repeat.between min max)) behind

namespace Simulation

variable (hs : Simulation R Past)
include hs

lemma length_eq_iff {other other' : List Octet} (h : R input input') (hother : R other other') :
    other.length = input.length ↔ other'.length = input'.length := by
  have hlt := hs.length_lt_iff h hother
  have hgt := hs.length_lt_iff hother h
  omega

lemma exists_cons {first : Octet} {rest : List Octet} (h : R (first :: rest) input') :
    ∃ first' rest', input' = first' :: rest' := by
  cases hfirst : first.isBreak with
  | true =>
    obtain ⟨first', rest', rfl, -⟩ := hs.cons_break h hfirst
    exact ⟨first', rest', rfl⟩
  | false =>
    obtain ⟨rest', rfl, -⟩ := hs.cons h hfirst
    exact ⟨first, rest', rfl⟩

lemma not_givesBack {reader : Reader α} (h : R input input')
    (hreader : ∀ {mismatch}, reader input = .error mismatch → mismatch.committed = false →
      mismatch.rest = input) : ¬ reader.GivesBack Past input := by
  rintro ⟨mismatch, hmismatch, hopen, hpast⟩
  exact hs.not_past h (hreader hmismatch hopen ▸ hpast)

/-! ### Ways to put readers together -/

lemma past_bind {reader : Reader α} {next : α → Reader β} (hpast : Past (remainder (reader input)))
    (hrecedes : ∀ value, (next value).Recedes) : Past (remainder ((reader >>= next) input)) := by
  simp only [Bind.bind, StateT.bind, Except.bind]
  cases hread : reader input <;> rw [hread] at hpast
  · exact hpast
  · exact hs.past_of_le hpast (hrecedes _ _).length_le

lemma bind {reader reader' : Reader α} {next next' : α → Reader β}
    (h : InStep R Past (reader input) (reader' input'))
    (hrecedes : ∀ value, (next value).Recedes)
    (hnext : ∀ {value rest rest'}, reader input = .ok (value, rest) → R rest rest' →
      InStep R Past (next value rest) (next' value rest')) :
    InStep R Past ((reader >>= next) input) ((reader' >>= next') input') :=
  InStep.bind h (fun {value rest} _ hpast => hs.past_of_le hpast (hrecedes value rest).length_le) hnext

lemma map {reader reader' : Reader α} (f : α → β)
    (h : InStep R Past (reader input) (reader' input')) :
    InStep R Past ((f <$> reader) input) ((f <$> reader') input') :=
  hs.bind h (fun value => recedes_pure (f value)) fun _ h => .ok _ h

lemma octet (expected : Expected) {accepts : Octet → Bool}
    (haccepts : ∀ octet : Octet, octet.isBreak → accepts octet = false) (h : R input input') :
    InStep R Past (Reader.octet expected accepts input) (Reader.octet expected accepts input') := by
  cases input with
  | nil =>
    obtain rfl := hs.nil h
    exact .error expected false h
  | cons first rest =>
    cases hfirst : first.isBreak with
    -- What breaks a line is not accepted in either run, though the two may break it differently.
    | true =>
      obtain ⟨first', rest', rfl, hfirst'⟩ := hs.cons_break h hfirst
      simp only [Reader.octet, haccepts _ hfirst, haccepts _ hfirst', Bool.false_eq_true, if_false]
      exact .error expected false h
    | false =>
      obtain ⟨rest', rfl, hrest⟩ := hs.cons h hfirst
      simp only [Reader.octet]
      split_ifs
      · exact hrest.elim (.ok first) fun hpast => .past hpast
      · exact .error expected false h

lemma exactly (expected : Expected) {char : Char} (hchar : Octet.isBreak char.toUInt8 = false)
    (h : R input input') :
    InStep R Past (Reader.exactly expected char input) (Reader.exactly expected char input') := by
  refine hs.bind (hs.octet expected (fun octet hoctet => ?_) h) (fun _ => recedes_pure ())
    fun _ h => .ok () h
  rw [beq_eq_false_iff_ne]
  rintro rfl
  rw [hchar] at hoctet
  contradiction

lemma endOfInput (h : R input input') :
    InStep R Past (Reader.endOfInput input) (Reader.endOfInput input') := by
  cases input with
  | nil =>
    obtain rfl := hs.nil h
    exact .ok () h
  | cons first rest =>
    obtain ⟨first', rest', rfl⟩ := hs.exists_cons h
    exact .error .endOfInput false h

/-- A run of octets is the same on both inputs, and what is behind it belongs together, if the run
does not come past what is followed. -/
lemma takeWhile_eq {accepts : Octet → Bool}
    (haccepts : ∀ octet : Octet, octet.isBreak → accepts octet = false) (h : R input input') :
    input'.takeWhile accepts = input.takeWhile accepts ∧
        R (input.dropWhile accepts) (input'.dropWhile accepts) ∨
      Past (input.dropWhile accepts) := by
  induction input generalizing input' with
  | nil =>
    obtain rfl := hs.nil h
    exact .inl ⟨rfl, h⟩
  | cons first rest ih =>
    cases hfirst : first.isBreak with
    | true =>
      obtain ⟨first', rest', rfl, hfirst'⟩ := hs.cons_break h hfirst
      simpa [haccepts _ hfirst, haccepts _ hfirst'] using .inl h
    | false =>
      obtain ⟨rest', rfl, hrest⟩ := hs.cons h hfirst
      cases hfirst : accepts first with
      | false => simpa [hfirst] using .inl h
      | true =>
        simp only [List.takeWhile_cons_of_pos hfirst, List.dropWhile_cons_of_pos hfirst,
          List.cons.injEq, true_and]
        obtain hrest | hpast := hrest
        · exact ih hrest
        · exact .inr (hs.past_of_le hpast (rest.length_dropWhile_le accepts))

lemma takeWhile {accepts : Octet → Bool}
    (haccepts : ∀ octet : Octet, octet.isBreak → accepts octet = false) (h : R input input') :
    InStep R Past (Reader.takeWhile accepts input) (Reader.takeWhile accepts input') := by
  obtain ⟨heq, hrest⟩ | hpast := hs.takeWhile_eq haccepts h
  · simp only [Reader.takeWhile, heq]
    exact .ok _ hrest
  · exact .past hpast

lemma past_or {first second : Reader α} (hpast : Past (remainder (first input)))
    (hgives : first.GivesBack Past input → second.Declines input) :
    Past (remainder (Reader.or first second input)) := by
  simp only [Reader.or]
  cases hfirst : first input with
  | ok =>
    rw [hfirst] at hpast
    exact hpast
  | error mismatch =>
    rw [hfirst] at hpast
    cases hcommitted : mismatch.committed with
    | true => simpa only [hcommitted, if_true] using hpast
    | false =>
      -- Both mismatches are open; whichever goes further is kept, and the first is past already.
      obtain ⟨other, hother, hopen⟩ := hgives ⟨mismatch, hfirst, hcommitted, hpast⟩
      simp only [hcommitted, hother, hopen, Bool.false_eq_true, if_false, Mismatch.furthest]
      split_ifs with hfurther
      · exact hs.past_of_le hpast hfurther.le
      · exact hpast

/-- Of two readers to choose from, the second declines where the first gives something back. -/
lemma or {first second : Reader α} (hfirst : InStep R Past (first input) (first input'))
    (hsecond : InStep R Past (second input) (second input'))
    (hgives : first.GivesBack Past input → second.Declines input) :
    InStep R Past (Reader.or first second input) (Reader.or first second input') := by
  by_cases hpast : Past (remainder (first input))
  · exact .past (hs.past_or hpast hgives)
  simp only [Reader.or]
  generalize first input = outcome at hfirst hpast
  generalize first input' = outcome' at hfirst
  cases hfirst with
  | past h => exact absurd h hpast
  | ok value h => exact .ok value h
  | overflow h => exact .overflow h
  | error expected committed h =>
    cases committed with
    | true => exact .error expected true h
    | false =>
      simp only [Bool.false_eq_true, if_false]
      generalize second input = other at hsecond
      generalize second input' = other' at hsecond
      cases hsecond with
      | ok value h' => exact .ok value h'
      | overflow h' => exact .overflow h'
      | error expected' committed' h' =>
        cases committed' with
        | true => exact .error expected' true h'
        | false =>
          -- The lengths decide which mismatch is kept, and they compare alike in both runs.
          simp only [Bool.false_eq_true, if_false, Mismatch.furthest, hs.length_lt_iff h h']
          split_ifs
          · exact .error expected' false h'
          · exact .error expected false h
      | past hpast' =>
        refine .past ?_
        cases other with
        | ok => exact hpast'
        | error mismatch =>
          simp only [Mismatch.furthest]
          split_ifs with hcommitted hfurther
          · exact hpast'
          · exact hpast'
          · exact hs.past_of_le hpast' (Nat.le_of_not_lt hfurther)

lemma past_label {reader : Reader α} (expected : Expected)
    (hpast : Past (remainder (reader input))) :
    Past (remainder (Reader.label expected reader input)) := by
  simp only [Reader.label]
  cases hread : reader input with
  | ok =>
    rw [hread] at hpast
    exact hpast
  | error mismatch =>
    rw [hread] at hpast
    simp only
    split_ifs with heq
    · -- The label stands at the beginning of the input, which is past with what comes behind it.
      exact hs.past_of_le hpast heq.ge
    · exact hpast

lemma label {reader : Reader α} (expected : Expected) (hopen : reader.StaysOpen)
    (h : R input input') (hreader : InStep R Past (reader input) (reader input')) :
    InStep R Past (Reader.label expected reader input) (Reader.label expected reader input') := by
  by_cases hlabel : Past (remainder (reader input))
  · exact .past (hs.past_label expected hlabel)
  simp only [Reader.label]
  generalize hread : reader input = outcome at hreader hlabel
  generalize reader input' = outcome' at hreader
  cases hreader with
  | ok value h => exact .ok value h
  | overflow => exact absurd rfl (hopen.not_committed hread)
  | error other committed h' =>
    simp only [hs.length_eq_iff h h']
    split_ifs
    · exact .error expected committed h
    · exact .error other committed h'
  | past hpast => exact absurd hpast hlabel

/-- Repetitions come past what is followed if their first turn does and gives nothing back. -/
lemma past_many {reader : Reader α} (hshrinks : reader.Shrinks) (hrecedes : reader.Recedes)
    (hpast : Past (remainder (reader input))) (hgives : ¬ reader.GivesBack Past input) :
    Past (remainder (Reader.many reader input)) := by
  cases hread : reader input with
  | error mismatch =>
    rw [hread] at hpast
    cases hcommitted : mismatch.committed with
    | true => rwa [many_of_error hread, if_pos hcommitted]
    | false => exact absurd ⟨mismatch, hread, hcommitted, hpast⟩ hgives
  | ok result =>
    obtain ⟨value, middle⟩ := result
    rw [hread] at hpast
    rw [many_of_ok hshrinks hread]
    have hleft := hrecedes.many middle
    cases hmany : Reader.many reader middle <;> rw [hmany] at hleft
    all_goals exact hs.past_of_le hpast hleft.length_le

/-- Repetitions stay in step if each turn does and gives nothing back. Where this fails, something else
may be said of what the repetition ends with, from which it is handed on to the turns before. -/
lemma many {reader reader' : Reader α} (hshrinks : reader.Shrinks) (hshrinks' : reader'.Shrinks)
    (hrecedes : reader.Recedes)
    {motive : List Octet → Except Mismatch (List α × List Octet) → Prop}
    (hturn : ∀ {input input'}, R input input' →
      InStep R Past (reader input) (reader' input') ∧ ¬ reader.GivesBack Past input ∨
        motive input (Reader.many reader input))
    (hprepend : ∀ {input middle value outcome}, reader input = .ok (value, middle) →
      motive middle outcome →
      motive input (outcome.map fun (values, rest) => (value :: values, rest)))
    (h : R input input') :
    InStep R Past (Reader.many reader input) (Reader.many reader' input') ∨
      motive input (Reader.many reader input) := by
  induction hlength : input.length using Nat.strong_induction_on generalizing input input' with
  | _ length ih =>
    -- On the length of the input, which each turn in step makes shorter in both runs.
    obtain ⟨hin, hgives⟩ | hmotive := hturn h
    · generalize hread : reader input = outcome at hin
      generalize hread' : reader' input' = outcome' at hin
      cases hin with
      | ok value hmiddle =>
        rw [many_of_ok hshrinks hread, many_of_ok hshrinks' hread']
        -- The loop goes on with inputs in step, or the motive comes from behind this turn.
        obtain hin | hmotive := ih _ (hlength ▸ hshrinks _ _ _ hread) hmiddle rfl
        · exact .inl (hin.prepend value)
        · exact .inr (hprepend hread hmotive)
      | error expected committed h' =>
        rw [many_of_error hread, many_of_error hread']
        cases committed with
        | true => exact .inl (.error expected true h')
        | false => exact .inl (.ok [] h)
      | overflow hpast =>
        rw [many_of_error hread]
        exact .inl (.overflow hpast)
      | past hpast =>
        rw [← hread] at hpast
        exact .inl (.past (hs.past_many hshrinks hrecedes hpast hgives))
    · exact .inr hmotive

/-! ### Lexical readers -/

lemma whiteSpace (h : R input input') :
    InStep R Past (Reader.whiteSpace input) (Reader.whiteSpace input') :=
  hs.bind (hs.octet _ (Octet.forall_isBreak.mpr (by decide)) h) (fun _ => recedes_pure ())
    fun _ h => .ok () h

/-- Where the input ends there is nothing to give back. -/
lemma endOfInput_declines {reader : Reader α} (h : R input input') (hrecedes : reader.Recedes)
    (hgives : reader.GivesBack Past input) : Reader.endOfInput.Declines input := by
  obtain ⟨mismatch, hmismatch, -, hpast⟩ := hgives
  rw [Reader.endOfInput_declines]
  rintro rfl
  have hleft := hrecedes []
  rw [hmismatch] at hleft
  exact hs.not_past h (List.suffix_nil.mp hleft ▸ hpast)

lemma comment (h : R input input') :
    InStep R Past (Reader.comment input) (Reader.comment input') := by
  have hend : (Reader.or Reader.lineBreak Reader.endOfInput).Recedes :=
    recedes_lineBreak.or recedes_endOfInput
  refine hs.bind (hs.exactly _ (by decide) h) (fun _ => (recedes_takeWhile _).bind fun _ => hend)
    fun _ h => ?_
  refine hs.bind (hs.takeWhile (Octet.forall_isBreak.mpr (by decide)) h) (fun _ => hend) fun _ h => ?_
  exact hs.or (hs.lineBreak h) (hs.endOfInput h) (hs.endOfInput_declines h recedes_lineBreak)

/-- A line break does not begin with a semicolon, which a comment does. -/
lemma lineBreak_declines (h : R input input') (hgives : Reader.comment.GivesBack Past input) :
    Reader.lineBreak.Declines input := by
  rw [staysOpen_lineBreak.declines_iff]
  intro _ rest hbreak
  -- A line break and a comment begin differently, so a comment gives nothing back before one.
  rw [lineBreak_eq_ok] at hbreak
  refine hs.not_givesBack h (fun {mismatch} hcomment _ => ?_) hgives
  rw [Reader.comment, Reader.bind_eq_error] at hcomment
  obtain hsemicolon | ⟨_, _, hsemicolon, -⟩ := hcomment
  · exact exactly_eq_error hsemicolon
  · obtain rfl := exactly_eq_ok.mp hsemicolon
    cases hbreak

lemma commentOrLineBreak (h : R input input') :
    InStep R Past (Reader.commentOrLineBreak input) (Reader.commentOrLineBreak input') :=
  hs.label _ (staysOpen_comment.or staysOpen_lineBreak) h
    (hs.or (hs.comment h) (hs.lineBreak h) (hs.lineBreak_declines h))

lemma blank (h : R input input') :
    InStep R Past (Reader.blank input) (Reader.blank input') := by
  refine hs.or (hs.whiteSpace h) ?_ fun hgives => ?_
  · exact hs.bind (hs.commentOrLineBreak h) (fun _ => recedes_whiteSpace) fun _ h => hs.whiteSpace h
  · refine absurd hgives (hs.not_givesBack h fun hspace _ => ?_)
    exact whiteSpace_eq_error hspace

/-- Blanks that have ended in both runs, or where one that the other run may go on with was given
back. -/
lemma many_blank (h : R input input') :
    (∃ units rest rest', Reader.many Reader.blank input = .ok (units, rest) ∧
      Reader.many Reader.blank input' = .ok (units, rest') ∧ R rest rest') ∨
    ∃ units stop, Reader.many Reader.blank input = .ok (units, stop) ∧ Stalls Past stop := by
  have hmany := hs.many shrinks_blank shrinks_blank recedes_blank
    (motive := fun _ outcome => ∃ units stop, outcome = .ok (units, stop) ∧ Stalls Past stop)
    (fun {input _} h => ?_) ?_ h
  · obtain hin | hstalls := hmany
    · generalize hread : Reader.many Reader.blank input = outcome at hin
      generalize hread' : Reader.many Reader.blank input' = outcome' at hin
      cases outcome with
      | error => exact absurd hread (staysOpen_blank.many_ne_error shrinks_blank)
      | ok =>
        cases hin with
        | ok units hrest => exact .inl ⟨units, _, _, rfl, rfl, hrest⟩
        | past hpast => exact .inr ⟨_, _, rfl, .inl hpast⟩
    · exact .inr hstalls
  · by_cases hgives : Reader.blank.GivesBack Past input
    · obtain ⟨mismatch, hmismatch, hopen, -⟩ := id hgives
      refine .inr ⟨[], input, ?_, .inr hgives⟩
      simp [many_of_error hmismatch, hopen]
    · exact .inl ⟨hs.blank h, hgives⟩
  · rintro input middle value outcome - ⟨units, stop, rfl, hstalls⟩
    exact ⟨value :: units, stop, rfl, hstalls⟩

lemma many1_blank (h : R input input') :
    InStep R Past (Reader.many1 Reader.blank input) (Reader.many1 Reader.blank input') ∨
    ∃ units stop, Reader.many1 Reader.blank input = .ok (units, stop) ∧ Stalls Past stop := by
  by_cases hstalls : ∃ units stop, Reader.many1 Reader.blank input = .ok (units, stop) ∧
      Stalls Past stop
  · exact .inr hstalls
  refine .inl (hs.bind (hs.blank h) (fun _ => recedes_blank.many.bind fun _ => recedes_pure _)
    fun {first middle _} hfirst h => ?_)
  -- Stalling later in the loop is stalling in all of it, which `hstalls` excludes.
  obtain ⟨units, rest, rest', hread, hread', hrest⟩ | ⟨units, stop, hread, hstop⟩ := hs.many_blank h
  · refine hs.bind ?_ (fun _ => recedes_pure _) fun _ h => .ok _ h
    rw [hread, hread']
    exact .ok units hrest
  · exact absurd ⟨_, stop, many1_eq_ok.mpr ⟨first, middle, units, hfirst, hread, rfl⟩, hstop⟩ hstalls

lemma blanks (h : R input input') :
    (∃ rest rest', Reader.blanks input = .ok ((), rest) ∧ Reader.blanks input' = .ok ((), rest') ∧
      R rest rest') ∨
    ∃ stop, Reader.blanks input = .ok ((), stop) ∧ Stalls Past stop := by
  obtain ⟨units, rest, rest', hread, hread', hrest⟩ | ⟨units, stop, hread, hstalls⟩ :=
    hs.many_blank h
  · refine .inl ⟨rest, rest', ?_, ?_, hrest⟩
    · exact Reader.bind_eq_ok.mpr ⟨units, rest, hread, rfl⟩
    · exact Reader.bind_eq_ok.mpr ⟨units, rest', hread', rfl⟩
  · exact .inr ⟨stop, Reader.bind_eq_ok.mpr ⟨units, stop, hread, rfl⟩, hstalls⟩

lemma ruleName (h : R input input') :
    InStep R Past (Reader.ruleName input) (Reader.ruleName input') := by
  refine hs.bind (hs.octet _ (Octet.forall_isBreak.mpr (by decide)) h)
    (fun _ => (recedes_takeWhile _).bind fun _ => recedes_pure _) fun _ h => ?_
  exact hs.bind (hs.takeWhile (Octet.forall_isBreak.mpr (by decide)) h)
    (fun _ => recedes_pure _) fun _ h => .ok _ h

/-- A number that comes past what is followed may be too large, which is told at its first digit. -/
lemma number (radix : Radix) (h : R input input') :
    InStep R Past (Reader.number radix input) (Reader.number radix input') := by
  have hbreak : ∀ octet : Octet, octet.isBreak → radix.isDigit octet = false := by
    rw [Octet.forall_isBreak]
    cases radix <;> decide
  obtain ⟨heq, hrest⟩ | hpast := hs.takeWhile_eq hbreak h
  · simp only [Reader.number, heq]
    split
    · exact .error _ false h
    · split_ifs
      · exact .ok _ hrest
      · exact .error _ true h
  · simp only [Reader.number]
    split
    next hdigits =>
      -- Digits were taken off the input, since without them the input would itself be past.
      rw [← List.takeWhile_append_dropWhile (p := radix.isDigit) (l := input), hdigits] at h
      exact absurd hpast (hs.not_past h)
    · split_ifs
      · exact .past hpast
      · exact .overflow (hs.past_of_le hpast (Nat.zero_le _))

lemma optional_number (radix : Radix) (h : R input input') :
    InStep R Past (Reader.optional (Reader.number radix) input)
      (Reader.optional (Reader.number radix) input') :=
  (InStep.optional h (hs.number radix h)).resolve_right fun hback =>
    hs.not_givesBack h (fun hnumber _ => number_eq_error hnumber) hback.2

lemma optional_exactly (expected : Expected) {char : Char}
    (hchar : Octet.isBreak char.toUInt8 = false) (h : R input input') :
    InStep R Past (Reader.optional (Reader.exactly expected char) input)
      (Reader.optional (Reader.exactly expected char) input') :=
  (InStep.optional h (hs.exactly expected hchar h)).resolve_right fun hback =>
    hs.not_givesBack h (fun hexactly _ => exactly_eq_error hexactly) hback.2

lemma bounds (h : R input input') :
    InStep R Past (Reader.bounds input) (Reader.bounds input') := by
  refine InStep.bind (hs.optional_number .decimal h) (fun {min middle} hmin hpast => ?_)
    fun {min middle middle'} _ hmiddle => ?_
  · cases min with
    -- Nothing was taken for the minimum, and so the input itself would be past.
    | none =>
      obtain ⟨_, -, hmin⟩ | ⟨-, -, rfl⟩ := optional_eq_ok.mp hmin
      · cases hmin
      · exact absurd hpast (hs.not_past h)
    -- Behind a minimum the bounds succeed, or fail further on, on a suffix in either case.
    | some count =>
      have hleft := bounds_suffix hmin
      simp only [Reader.bounds, hmin] at hleft
      exact hs.past_of_le hpast hleft.length_le
  · refine InStep.bind (hs.optional_exactly _ (by decide) hmiddle)
      (fun {star behind} hstar hpast => ?_) fun {star _ _} _ hbehind => ?_
    · cases star with
      | none =>
        obtain ⟨_, -, hstar⟩ | ⟨-, -, rfl⟩ := optional_eq_ok.mp hstar
        · cases hstar
        · exact absurd hpast (hs.not_past hmiddle)
      | some =>
        have hleft := (recedes_number .decimal).optional.bind
          (fun max => recedes_pure (Repeat.between (min.getD 0) max)) behind
        refine hs.past_of_le hpast (List.IsSuffix.length_le ?_)
        cases min <;> exact hleft
    · cases star with
      | some =>
        have hmax := hs.bind (hs.optional_number .decimal hbehind)
          (fun max => recedes_pure (Repeat.between (min.getD 0) max)) fun _ h => .ok _ h
        cases min <;> exact hmax
      | none =>
        cases min with
        | none => exact .error _ false h
        | some => exact .ok _ hbehind

lemma delimited {opening closing : Char} (start stop : Expected) {accepts : Octet → Bool}
    (hopening : Octet.isBreak opening.toUInt8 = false)
    (hclosing : Octet.isBreak closing.toUInt8 = false)
    (haccepts : ∀ octet : Octet, octet.isBreak → accepts octet = false) (h : R input input') :
    InStep R Past (Reader.delimited opening closing start stop accepts input)
      (Reader.delimited opening closing start stop accepts input') := by
  have hstop : ∀ octets : List Octet,
      (do Reader.exactly stop closing; return octets : Reader (List Octet)).Recedes :=
    fun octets => (recedes_exactly _ _).bind fun _ => recedes_pure octets
  refine hs.bind (hs.exactly start hopening h) (fun _ => ?_) fun _ h => InStep.commit ?_
  · exact ((recedes_takeWhile _).bind hstop).commit
  · refine hs.bind (hs.takeWhile haccepts h) hstop fun _ h => ?_
    exact hs.bind (hs.exactly stop hclosing h) (fun _ => recedes_pure _) fun _ h => .ok _ h

lemma radix (h : R input input') :
    InStep R Past (Reader.radix input) (Reader.radix input') := by
  have hbreak : ∀ octet : Octet, octet.isBreak → Radix.ofLetter? octet = none :=
    Octet.forall_isBreak.mpr (by decide)
  cases input with
  | nil =>
    obtain rfl := hs.nil h
    exact .error _ false h
  | cons first rest =>
    cases hfirst : first.isBreak with
    | true =>
      obtain ⟨first', rest', rfl, hfirst'⟩ := hs.cons_break h hfirst
      simp only [Reader.radix, hbreak _ hfirst, hbreak _ hfirst']
      exact .error _ false h
    | false =>
      obtain ⟨rest', rfl, hrest⟩ := hs.cons h hfirst
      simp only [Reader.radix]
      split
      · exact hrest.elim (.ok _) fun hpast => .past hpast
      · exact .error _ false h

end Simulation

end AugmentedBnf
