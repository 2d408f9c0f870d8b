import AugmentedBnf.Proofs.Reader.Completeness
import AugmentedBnf.Proofs.Reader.LookAhead

/-!
# What readers give back

A run may give back what it has read ahead, and another run from there need not do the same. The first
run then ends before what it has given back, and whatever has to follow finds it or reports it.

* `Loose`: the outcome of a run from which another run may differ because of what was given back.
* `Follows`: two runs in step, or the first one with such an outcome.
* `Simulation.numeric`: two runs over a numeric value.
-/

namespace AugmentedBnf

open Reader

section

variable {α : Type} (R : List Octet → List Octet → Prop) (Past : List Octet → Prop)

/-- Another run need not end like this one: something was given back before the place where this one
has ended, or it has reported that. -/
inductive Loose (Reports : Mismatch → Prop) (Ends : α → List Octet → Prop) :
    Except Mismatch (α × List Octet) → Prop where
  | ok {value rest} (h : Ends value rest) : Loose Reports Ends (.ok (value, rest))
  | error {mismatch} (h : Reports mismatch) (hpast : Past []) : Loose Reports Ends (.error mismatch)

/-- Two runs have ended in step, or the first one in a way that another need not follow. -/
def Follows (Reports : Mismatch → Prop) (Ends : α → List Octet → Prop)
    (outcome outcome' : Except Mismatch (α × List Octet)) : Prop :=
  InStep R Past outcome outcome' ∨ Loose Past Reports Ends outcome

/-- A numeric value has ended before an octet that may belong to it. -/
inductive EndsNumeric (IsLast : Numeric → Prop) : List Octet → Prop where
  | mk {value : Numeric} {first others} (hlast : IsLast value) (hfirst : value.GoesOn first)
      (hpast : Past []) : EndsNumeric IsLast (first :: others)

/-- Behind what has been read, something is given back, perhaps after some blanks. -/
inductive Wavers (IsLast : Numeric → Prop) (rest : List Octet) : Prop where
  | blanks {stop} (hblanks : Settles rest stop) (hstop : Stalls Past stop)
  | bounds {first others} (hblanks : SomeBlanks rest (first :: others)) (hfirst : first.isBound)
      (hpast : Past [])
  | numeric (h : EndsNumeric Past IsLast rest)

end

variable {α β : Type} {R : List Octet → List Octet → Prop} {Past : List Octet → Prop}
  {Reports Reports' : Mismatch → Prop} {Ends : α → List Octet → Prop} {Ends' : β → List Octet → Prop}
  {IsLast IsLast' : Numeric → Prop} {input input' rest : List Octet}

lemma EndsNumeric.imp (h : EndsNumeric Past IsLast rest)
    (himp : ∀ {value}, IsLast value → IsLast' value) : EndsNumeric Past IsLast' rest := by
  cases h with
  | mk hlast hfirst hpast => exact .mk (himp hlast) hfirst hpast

lemma Wavers.imp (h : Wavers Past IsLast rest) (himp : ∀ {value}, IsLast value → IsLast' value) :
    Wavers Past IsLast' rest := by
  cases h with
  | blanks hblanks hstop => exact .blanks hblanks hstop
  | bounds hblanks hfirst hpast => exact .bounds hblanks hfirst hpast
  | numeric h => exact .numeric (h.imp himp)

lemma Loose.map {outcome : Except Mismatch (α × List Octet)} (h : Loose Past Reports Ends outcome)
    {f : α → β} (hreports : ∀ {mismatch}, Reports mismatch → Reports' mismatch)
    (hends : ∀ {value rest}, Ends value rest → Ends' (f value) rest) :
    Loose Past Reports' Ends' (outcome.map fun (value, rest) => (f value, rest)) := by
  cases h with
  | ok h => exact .ok (hends h)
  | error h hpast => exact .error (hreports h) hpast

lemma Follows.commit {reader reader' : Reader α}
    (h : Follows R Past Reports Ends (reader input) (reader' input'))
    (hreports : ∀ {mismatch}, Reports mismatch → Reports' { mismatch with committed := true }) :
    Follows R Past Reports' Ends (Reader.commit reader input) (Reader.commit reader' input') := by
  refine h.imp InStep.commit fun hloose => ?_
  simp only [Reader.commit]
  generalize reader input = outcome at hloose
  cases hloose with
  | ok h => exact .ok h
  | error h hpast => exact .error (hreports h) hpast

lemma Reader.bind_of_ok {reader : Reader α} {next : α → Reader β} {value : α}
    (h : reader input = .ok (value, rest)) : (reader >>= next) input = next value rest := by
  simp only [Bind.bind, StateT.bind, Except.bind, h]

/-- Where the first reader has ended loosely, what follows it is past what is followed, or it ends
loosely too. -/
lemma Follows.bind (hs : Simulation R Past) {reader reader' : Reader α} {next next' : α → Reader β}
    (h : Follows R Past Reports Ends (reader input) (reader' input'))
    (hrecedes : ∀ value, (next value).Recedes)
    (hreports : ∀ {mismatch}, Reports mismatch → Reports' mismatch)
    (hnext : ∀ {value rest rest'}, reader input = .ok (value, rest) → R rest rest' →
      Follows R Past Reports' Ends' (next value rest) (next' value rest'))
    (hends : ∀ {value rest}, reader input = .ok (value, rest) → Ends value rest →
      Past (remainder (next value rest)) ∨ Loose Past Reports' Ends' (next value rest)) :
    Follows R Past Reports' Ends' ((reader >>= next) input) ((reader' >>= next') input') := by
  obtain hin | hloose := h
  · -- `bind` needs the rest in step at every place, so the loose case is set apart first.
    by_cases hloose : Loose Past Reports' Ends' ((reader >>= next) input)
    · exact .inr hloose
    · refine .inl (hs.bind hin hrecedes fun hread hrest => ?_)
      rw [bind_of_ok hread] at hloose
      exact (hnext hread hrest).resolve_right hloose
  · generalize hread : reader input = outcome at hloose
    cases hloose with
    | ok h =>
      rw [Follows, bind_of_ok hread]
      exact (hends hread h).imp_left .past
    | error h hpast =>
      have hbind : (reader >>= next) input = .error _ := Reader.bind_eq_error.mpr (.inl hread)
      rw [Follows, hbind]
      exact .inr (.error (hreports h) hpast)

lemma InStep.bind_follows (hs : Simulation R Past) {reader reader' : Reader α}
    {next next' : α → Reader β} (h : InStep R Past (reader input) (reader' input'))
    (hrecedes : ∀ value, (next value).Recedes)
    (hnext : ∀ {value rest rest'}, reader input = .ok (value, rest) → R rest rest' →
      Follows R Past Reports Ends' (next value rest) (next' value rest')) :
    Follows R Past Reports Ends' ((reader >>= next) input) ((reader' >>= next') input') := by
  have hfollows : Follows R Past (fun _ => False) (fun _ _ => False) (reader input) (reader' input') :=
    .inl h
  exact hfollows.bind hs hrecedes (fun hfalse => hfalse.elim) hnext fun _ hfalse => hfalse.elim

lemma Follows.bind_pure (hs : Simulation R Past) {reader reader' : Reader α} {f : α → β}
    (h : Follows R Past Reports Ends (reader input) (reader' input'))
    (hreports : ∀ {mismatch}, Reports mismatch → Reports' mismatch)
    (hends : ∀ {value rest}, reader input = .ok (value, rest) → Ends value rest → Ends' (f value) rest) :
    Follows R Past Reports' Ends' ((do let value ← reader; return f value : Reader β) input)
      ((do let value ← reader'; return f value : Reader β) input') :=
  h.bind hs (fun _ => recedes_pure _) hreports (fun _ hrest => .inl (.ok _ hrest))
    fun hread h => .inr (.ok (hends hread h))

lemma Follows.imp {outcome outcome' : Except Mismatch (α × List Octet)}
    (h : Follows R Past Reports Ends outcome outcome')
    (hreports : ∀ {mismatch}, Reports mismatch → Reports' mismatch) :
    Follows R Past Reports' Ends outcome outcome' := by
  refine h.imp_right fun hloose => ?_
  cases hloose with
  | ok hends => exact .ok hends
  | error hreport hpast => exact .error (hreports hreport) hpast

lemma Reader.committed_of_commit {reader : Reader α} {mismatch : Mismatch}
    (h : Reader.commit reader input = .error mismatch) : mismatch.committed := by
  simp only [Reader.commit] at h
  cases hread : reader input <;> rw [hread] at h <;> cases h
  rfl

/-! ### Blanks -/

lemma Octet.not_of_isLineEnd {octet : Octet} (h : octet.isLineEnd) :
    octet.isBound = false ∧ octet.opensElement = false ∧ octet ≠ '/'.toUInt8 := by
  revert octet
  rw [Octet.forall_iff]
  decide +kernel

lemma Octet.not_opensBlank_of_isBound {octet : Octet} (h : octet.isBound) :
    octet.opensBlank = false ∧ octet ≠ '/'.toUInt8 := by
  revert octet
  rw [Octet.forall_iff]
  decide +kernel

lemma Numeric.GoesOn.not_opensBlank {value : Numeric} {octet : Octet} (h : value.GoesOn octet) :
    octet.opensBlank = false ∧ octet ≠ '/'.toUInt8 := by
  cases h <;> decide

lemma not_blank_of_not_opensBlank {first : Octet} {others : List Octet}
    (h : first.opensBlank = false) (rest : List Octet) : ¬ Blank (first :: others) rest := by
  intro hblank
  obtain ⟨_, _, heq, hfirst⟩ := hblank.head
  cases heq
  rw [h] at hfirst
  contradiction

lemma Reader.exactly_of_bars {expected : Expected} {char : Char}
    (h : Bars (· == char.toUInt8) input) :
    exactly expected char input = .error ⟨expected, input, false⟩ := by
  cases input with
  | nil => rfl
  | cons first others =>
    have hfirst : (first == char.toUInt8) = false := h first rfl
    simp [exactly, octet, hfirst, bind, StateT.bind, Except.bind]

lemma Reader.exactly_of_bars_class {accepts : Octet → Bool} (h : Bars accepts input)
    (expected : Expected) {char : Char} (hchar : accepts char.toUInt8) :
    exactly expected char input = .error ⟨expected, input, false⟩ := by
  refine exactly_of_bars fun octet hoctet => ?_
  rw [beq_eq_false_iff_ne]
  rintro rfl
  rw [h _ hoctet] at hchar
  contradiction

/-- Where no line ends, its end is missing right away. -/
lemma Reader.commentOrLineBreak_of_bars (h : Bars Octet.isLineEnd input) :
    commentOrLineBreak input = .error ⟨.commentOrLineBreak, input, false⟩ := by
  have hsemicolon := exactly_of_bars_class h .semicolon (show Octet.isLineEnd ';'.toUInt8 by decide)
  have hreturn := exactly_of_bars_class h .carriageReturn (show Octet.isLineEnd '\r'.toUInt8 by decide)
  have hfeed := exactly_of_bars_class h .lineBreak (show Octet.isLineEnd '\n'.toUInt8 by decide)
  simp [commentOrLineBreak, label, Reader.or, comment, lineBreak, bind, StateT.bind, Except.bind,
    hsemicolon, hreturn, hfeed, Mismatch.furthest]

lemma Reader.lineBreak_of_bars (h : Bars Octet.isBreak input) :
    lineBreak input = .error ⟨.carriageReturn, input, false⟩ := by
  have hreturn := exactly_of_bars_class h .carriageReturn (show Octet.isBreak '\r'.toUInt8 by decide)
  have hfeed := exactly_of_bars_class h .lineBreak (show Octet.isBreak '\n'.toUInt8 by decide)
  simp [Reader.or, lineBreak, bind, StateT.bind, Except.bind, hreturn, hfeed, Mismatch.furthest]

/-- Where blanks stall at what is followed, a line ends, and its end is past what is followed. -/
lemma Stalls.cases (h : Stalls Past input) :
    Past input ∨ (∃ first others, input = first :: others ∧ first.isLineEnd) ∧
      Past (remainder (commentOrLineBreak input)) := by
  by_cases hinput : Past input
  · exact .inl hinput
  obtain ⟨mismatch, hmismatch, -, hpast⟩ := h.resolve_left hinput
  obtain hspace | hindented := or_eq_error hmismatch
  · exact absurd (whiteSpace_eq_error hspace ▸ hpast) hinput
  refine .inr ⟨?_, ?_⟩
  · -- A comment or line break that is missing right away would be given back at the input.
    by_contra hnone
    have hbars : Bars Octet.isLineEnd input := fun first hfirst => by
      obtain ⟨others, rfl⟩ := List.head?_eq_some_iff.mp hfirst
      exact Bool.eq_false_iff.mpr fun hend => hnone ⟨first, others, rfl, hend⟩
    obtain hend | ⟨_, _, hend, -⟩ := Reader.bind_eq_error.mp hindented
    all_goals
      rw [commentOrLineBreak_of_bars hbars] at hend
      cases hend
    exact hinput hpast
  · -- The line ends or does not, but what is past stands behind its end in both cases.
    obtain hend | ⟨_, middle, hend, hspace⟩ := Reader.bind_eq_error.mp hindented
    · rw [hend]
      exact hpast
    · rw [hend]
      exact whiteSpace_eq_error hspace ▸ hpast

/-! ### Numeric values -/

def Reader.numberBehind (expected : Expected) (char : Char) (radix : Radix) : Reader UInt32 := do
  exactly expected char
  number radix

/-- The numbers behind the first one of a numeric value. -/
def Reader.numericFrom (radix : Radix) (first : UInt32) : Reader Numeric := do
  let others ← many (numberBehind .sequenceDot '.' radix)
  if others ≠ [] then return ⟨radix, false, first :: others⟩
  let upper ← optional (numberBehind .rangeHyphen '-' radix)
  match upper with
  | some upper => return ⟨radix, true, [first, upper]⟩
  | none => return ⟨radix, false, [first]⟩

lemma Reader.numeric_eq : numeric = (do
    exactly .percentSign '%'
    commit do
      let radix ← radix
      let first ← number radix
      numericFrom radix first) := rfl

lemma Reader.optional_of_declines {reader : Reader α} (h : reader.Declines input) :
    Reader.optional reader input = .ok (none, input) :=
  optional_eq_ok.mpr (.inr ⟨h, rfl, rfl⟩)

lemma Reader.recedes_radix : radix.Recedes := by
  intro input
  cases input with
  | nil => exact List.suffix_rfl
  | cons first rest =>
    simp only [radix]
    cases Radix.ofLetter? first with
    | none => exact List.suffix_rfl
    | some => exact List.suffix_cons _ _

lemma Reader.recedes_numberBehind (expected : Expected) (char : Char) (radix : Radix) :
    (numberBehind expected char radix).Recedes :=
  (recedes_exactly _ _).bind fun _ => recedes_number radix

lemma Reader.recedes_upper (radix : Radix) (first : UInt32) (upper : Option UInt32) :
    (match upper with
      | some upper => pure ⟨radix, true, [first, upper]⟩
      | none => pure ⟨radix, false, [first]⟩ : Reader Numeric).Recedes := by
  cases upper <;> exact recedes_pure _

lemma Reader.recedes_numericFrom (radix : Radix) (first : UInt32) :
    (numericFrom radix first).Recedes := by
  refine (recedes_numberBehind _ _ _).many.bind fun others => ?_
  split_ifs
  · exact recedes_pure _
  · exact (recedes_numberBehind _ _ _).optional.bind (recedes_upper radix first)

namespace Simulation

variable (hs : Simulation R Past)
include hs

lemma numberBehind (expected : Expected) {char : Char} (radix : Radix)
    (hchar : Octet.isBreak char.toUInt8 = false) (h : R input input') :
    InStep R Past (Reader.numberBehind expected char radix input)
      (Reader.numberBehind expected char radix input') :=
  hs.bind (hs.exactly expected hchar h) (fun _ => recedes_number radix) fun _ h =>
    hs.number radix h

/-- The octet that announces a number is given back if the number is past what is followed. -/
lemma numberBehind_givesBack {expected : Expected} {char : Char} {radix : Radix} (h : R input input')
    (hgives : (Reader.numberBehind expected char radix).GivesBack Past input) :
    ∃ stop, input = char.toUInt8 :: stop ∧ Past stop := by
  obtain ⟨mismatch, hmismatch, -, hpast⟩ := hgives
  obtain hchar | ⟨_, stop, hchar, hnumber⟩ := Reader.bind_eq_error.mp hmismatch
  · exact absurd (exactly_eq_error hchar ▸ hpast) (hs.not_past h)
  · exact ⟨stop, exactly_eq_ok.mp hchar, number_eq_error hnumber ▸ hpast⟩

/-- Further numbers are given back from the full stop on. -/
lemma many_dottedNumber (radix : Radix) (h : R input input') :
    InStep R Past (Reader.many (Reader.numberBehind .sequenceDot '.' radix) input)
      (Reader.many (Reader.numberBehind .sequenceDot '.' radix) input') ∨
    ∃ values stop, Reader.many (Reader.numberBehind .sequenceDot '.' radix) input =
      .ok (values, '.'.toUInt8 :: stop) ∧ Past stop := by
  have hshrinks : (Reader.numberBehind .sequenceDot '.' radix).Shrinks := shrinks_dottedNumber radix
  refine hs.many hshrinks hshrinks (recedes_numberBehind _ _ _) (motive := fun _ outcome => ∃ values stop,
      outcome = .ok (values, '.'.toUInt8 :: stop) ∧ Past stop) (fun {input _} h => ?_) ?_ h
  · by_cases hgives : (Reader.numberBehind .sequenceDot '.' radix).GivesBack Past input
    · obtain ⟨stop, rfl, hpast⟩ := hs.numberBehind_givesBack h hgives
      obtain ⟨mismatch, hmismatch, hopen, -⟩ := hgives
      refine .inr ⟨[], stop, ?_, hpast⟩
      rw [many_of_error hmismatch, if_neg (by simp [hopen])]
    · exact .inl ⟨hs.numberBehind _ radix (by decide) h, hgives⟩
  · rintro input middle value outcome - ⟨values, stop, rfl, hpast⟩
    exact ⟨value :: values, stop, rfl, hpast⟩

/-- What announces a further number is given back if the number is past what is followed. -/
lemma numericFrom (radix : Radix) (first : UInt32) (h : R input input') :
    InStep R Past (Reader.numericFrom radix first input) (Reader.numericFrom radix first input') ∨
    ∃ value announcing stop, Reader.numericFrom radix first input =
      .ok (value, announcing :: stop) ∧ value.GoesOn announcing ∧ Past stop := by
  obtain hothers | ⟨others, stop, hothers, hpast⟩ := hs.many_dottedNumber radix h
  · -- A hyphen is looked at only where no full stop led to a further number.
    by_cases hgives : ∃ middle, Reader.many (Reader.numberBehind .sequenceDot '.' radix) input =
        .ok ([], middle) ∧ (Reader.numberBehind .rangeHyphen '-' radix).GivesBack Past middle ∧
        ∃ middle', R middle middle'
    · obtain ⟨middle, hothers, hgives, middle', h⟩ := hgives
      obtain ⟨stop, rfl, hpast⟩ := hs.numberBehind_givesBack h hgives
      obtain ⟨mismatch, hmismatch, hopen, -⟩ := hgives
      refine .inr ⟨⟨radix, false, [first]⟩, _, stop, ?_, .hyphen _ _, hpast⟩
      refine Reader.bind_eq_ok.mpr ⟨[], _, hothers, ?_⟩
      exact Reader.bind_eq_ok.mpr ⟨none, _, optional_of_declines ⟨mismatch, hmismatch, hopen⟩, rfl⟩
    · refine .inl (hs.bind hothers (fun others => ?_) fun {others middle middle'} hothers h => ?_)
      · split_ifs
        · exact recedes_pure _
        · exact (recedes_numberBehind _ _ _).optional.bind (recedes_upper radix first)
      split_ifs with hnil
      · exact .ok _ h
      · -- The list is empty, and so what could be given back has been excluded.
        obtain rfl := not_ne_iff.mp hnil
        have hhyphen : Octet.isBreak '-'.toUInt8 = false := by decide
        have hupper := InStep.optional h (hs.numberBehind .rangeHyphen radix hhyphen h)
        refine hs.bind (hupper.resolve_right fun hback => ?_) (recedes_upper radix first)
          fun {upper _ _} _ h => ?_
        · exact hgives ⟨middle, hothers, hback.2, middle', h⟩
        · cases upper <;> exact .ok _ h
  · refine .inr ⟨⟨radix, false, first :: others⟩, _, stop, ?_, .fullStop _ _, hpast⟩
    refine Reader.bind_eq_ok.mpr ⟨others, _, hothers, ?_⟩
    -- What is given back begins with a full stop, which is no hyphen.
    split_ifs with hnil
    · rfl
    · obtain rfl := not_ne_iff.mp hnil
      have hhyphen : (Reader.numberBehind .rangeHyphen '-' radix).Declines ('.'.toUInt8 :: stop) :=
        bind_declines.mpr (.inl (exactly_declines.mpr (bars_cons (by decide))))
      exact Reader.bind_eq_ok.mpr ⟨none, _, optional_of_declines hhyphen, rfl⟩

lemma numeric (h : R input input') :
    Follows R Past (fun _ => False) (fun value => EndsNumeric Past (value = ·))
      (Reader.numeric input) (Reader.numeric input') := by
  by_cases hloose : Loose Past (fun _ => False) (fun value => EndsNumeric Past (value = ·))
      (Reader.numeric input)
  · exact .inr hloose
  refine .inl (hs.bind (hs.exactly _ (by decide) h) (fun _ => Recedes.commit ?_)
    fun {_ _ _} hpercent h => InStep.commit ?_)
  · exact recedes_radix.bind fun radix => (recedes_number radix).bind (recedes_numericFrom radix)
  refine hs.bind (hs.radix h) (fun radix => (recedes_number radix).bind (recedes_numericFrom radix))
    fun {radix _ _} hradix h => ?_
  refine hs.bind (hs.number radix h) (recedes_numericFrom radix) fun {first _ _} hfirst h => ?_
  refine (hs.numericFrom radix first h).resolve_right ?_
  rintro ⟨value, announcing, stop, hread, hgoes, hpast⟩
  have hnumeric : Reader.numeric input = .ok (value, announcing :: stop) := by
    simp only [numeric_eq, Reader.bind_eq_ok, commit_eq_ok]
    exact ⟨_, _, hpercent, radix, _, hradix, first, _, hfirst, hread⟩
  rw [hnumeric] at hloose
  exact hloose (.ok (.mk rfl hgoes (hs.past_of_le hpast (Nat.zero_le _))))

end Simulation

end AugmentedBnf
