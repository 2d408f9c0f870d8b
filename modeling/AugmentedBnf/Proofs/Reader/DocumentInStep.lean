import AugmentedBnf.Proofs.Reader.BodyInStep
import AugmentedBnf.Proofs.Reader.ErrorPosition

/-!
# Two runs over a document

From inputs that belong together the same definitions are read, or both runs report the same at
places that belong together, unless the first run comes past what is followed or reports what may be
completed.

* `Simulation.definition`, `Simulation.emptyLine`: one definition and one line without.
* `Simulation.definitionsUpTo`: all definitions of a document.
-/

namespace AugmentedBnf

open Reader

variable {α : Type} {R : List Octet → List Octet → Prop} {Past : List Octet → Prop}
  {Reports : Mismatch → Prop} {input input' : List Octet}

lemma Octet.not_isLineEnd_of_not_opensBlank {octet : Octet} (h : octet.opensBlank = false) :
    octet.isLineEnd = false := by
  revert octet
  rw [Octet.forall_iff]
  decide +kernel

def Reader.ruleEnd : Reader Unit := label .commentOrLineBreak (or commentOrLineBreak endOfInput)

lemma Reader.ruleEnd_of_bars {first : Octet} {others : List Octet} (h : first.isLineEnd = false) :
    ruleEnd (first :: others) = .error ⟨.commentOrLineBreak, first :: others, false⟩ := by
  simp [ruleEnd, label, Reader.or, commentOrLineBreak_of_bars (bars_cons h), endOfInput,
    Mismatch.furthest]

lemma Simulation.closes_ruleEnd (hs : Simulation R Past) :
    Closes R Past ruleEnd .commentOrLineBreak where
  recedes := recedes_ruleEnd
  inStep h := hs.label _ (staysOpen_commentOrLineBreak.or staysOpen_endOfInput) h
    (hs.or (hs.commentOrLineBreak h) (hs.endOfInput h)
      (hs.endOfInput_declines h recedes_commentOrLineBreak))
  missing := by
    intro first others hfirst
    refine ⟨false, ruleEnd_of_bars ?_⟩
    obtain hfirst | ⟨value, hfirst⟩ := hfirst
    · exact Octet.not_isLineEnd_of_not_opensBlank (Octet.not_opensBlank_of_isBound hfirst).1
    · exact Octet.not_isLineEnd_of_not_opensBlank hfirst.not_opensBlank.1
  lineEnd := by
    intro first others _ hend
    refine .inl (hs.past_label _ (hs.past_or hend fun _ => ?_))
    exact Reader.endOfInput_declines.mpr (List.cons_ne_nil _ _)

/-- The marker of a definition behind the blanks before it. -/
def Reader.equalsSign : Reader Marker := do
  exactly .definitionMarker '='
  let slash ← optional (exactly .incrementalSlash '/')
  blanks
  return if slash.isSome then .incremental else .basic

lemma Reader.marker_eq : marker = (do blanks; equalsSign) := rfl

/-- What stands behind the equals sign itself. -/
lemma Reader.recedes_slash : (do
    let slash ← optional (exactly .incrementalSlash '/')
    blanks
    return if slash.isSome then .incremental else .basic : Reader Marker).Recedes := by
  refine (recedes_exactly _ _).optional.bind fun slash => ?_
  exact recedes_blanks.bind fun _ => recedes_pure _

lemma Reader.recedes_equalsSign : equalsSign.Recedes :=
  (recedes_exactly _ _).bind fun _ => recedes_slash

lemma Reader.equalsSign_of_isLineEnd {first : Octet} {others : List Octet}
    (hfirst : first.isLineEnd) :
    equalsSign (first :: others) = .error ⟨.definitionMarker, first :: others, false⟩ := by
  have hbars : (first == '='.toUInt8) = false := by
    refine beq_eq_false_iff_ne.mpr ?_
    rintro rfl
    revert hfirst
    decide
  exact Reader.bind_eq_error.mpr (.inl (exactly_of_bars (bars_cons hbars)))

lemma Simulation.equalsSign (hs : Simulation R Past) (h : R input input') :
    Follows R Past Reports (fun _ => Stalls Past) (Reader.equalsSign input)
      (Reader.equalsSign input') := by
  refine (hs.exactly _ (by decide) h).bind_follows hs
    (fun _ => recedes_slash)
    fun {_ middle middle'} _ hmiddle => ?_
  refine (hs.optional_exactly _ (by decide) hmiddle).bind_follows hs
    (fun _ => recedes_blanks.bind fun _ => recedes_pure _) fun {slash behind _} _ hbehind => ?_
  exact (hs.followsBlanks hbehind).bind_pure hs (fun hfalse => hfalse.elim) fun _ hstalls => hstalls

lemma Simulation.marker (hs : Simulation R Past) {name : String} {whole : List Octet}
    (hname : NameDerives name whole input) (h : R input input') :
    Follows R Past (fun mismatch => Rule.IsTentative whole mismatch.expected mismatch.rest)
      (fun _ => Stalls Past) (Reader.marker input) (Reader.marker input') := by
  rw [marker_eq]
  refine (hs.followsBlanks h).bind hs (fun _ => recedes_equalsSign)
    (fun hfalse => hfalse.elim) (fun _ hrest => hs.equalsSign hrest) fun {_ rest} hread hstalls => ?_
  -- Before an equals sign blanks may stall, and then the marker may stand in an indented line.
  obtain hpast | ⟨⟨first, others, rfl, hfirst⟩, hend⟩ := hstalls.cases
  · exact .inl (hs.past_of_le hpast (recedes_equalsSign rest).length_le)
  · have hblanks : Blanks input (first :: others) := (blanks_eq_ok.mp hread).1
    rw [equalsSign_of_isLineEnd hfirst]
    exact .inr (.error (.marker hname hblanks hfirst) (hs.past_of_le hend (Nat.zero_le _)))

lemma Reader.alternation_bind {next : Alternation → Reader α} :
    (alternation >>= next) input =
      (alternationOf (elementUpTo input.length) >>= next) input := by
  simp only [Bind.bind, StateT.bind, alternation]

lemma Reader.definition_eq : definition = (do
    let name ← ruleName
    commit do
      let marker ← marker
      let body ← alternation
      closing ruleEnd ⟨name, marker, body⟩) := by
  simp only [definition, body, closing, ruleEnd, bind_assoc, pure_bind]

/-- Two runs over a definition are in step, or the first one reports what may be completed. -/
theorem Simulation.definition (hs : Simulation R Past) (h : R input input') :
    Follows R Past (fun mismatch => Rule.IsTentative input mismatch.expected mismatch.rest)
      (fun _ _ => False) (Reader.definition input) (Reader.definition input') := by
  have hclosing : ∀ name marker, Recedes (do
      let body ← Reader.alternation
      closing ruleEnd (⟨name, marker, body⟩ : Rule)) := fun name marker =>
    Recedes.bind (fun input => (recedes_elementUpTo input.length).alternationOf input) fun _ =>
      hs.closes_ruleEnd.recedes_closing _
  rw [definition_eq]
  refine (hs.ruleName h).bind_follows hs (fun name => (recedes_marker.bind (hclosing name)).commit)
    fun {name rest _} hread hrest => ?_
  have hname : NameDerives name input rest := (ruleName_eq_ok.mp hread).1
  refine Follows.commit ?_ id
  refine (hs.marker hname hrest).bind hs (hclosing name) id
    (fun {marker start start'} hread hstart => ?_) fun {marker start} hread hstalls => ?_
  all_goals have hmarker : marker.Derives rest start := derives_of_marker hread
  · -- The body is read with as much depth as there are octets, hence the two depths differ.
    have hbody := (hs.upTo start.length start'.length).closes_ruleEnd.closed (hs.upTo _ _)
      (hs.elementUpTo start.length start'.length) (fun body => (⟨name, marker, body⟩ : Rule))
      ⟨hstart, le_refl _, le_refl _⟩
    rw [alternation_bind, alternation_bind]
    exact (hbody.mono fun hrest => hrest.1).imp fun htentative => .body hname hmarker htentative
  · refine hstalls.missing hs (hclosing name marker) (fun {first others} hfirst => ?_) ?_
    · rw [alternation_bind]
      -- A line end has the reader fail at once, whatever depth is chosen for the other run.
      have helement := hs.elementUpTo (first :: others).length 0
      exact Reader.bind_eq_error.mpr (.inl (helement.alternationOf_of_lineEnd hfirst))
    · rintro first others rfl hfirst
      exact .body hname hmarker (.branch hfirst)

lemma Reader.staysOpen_blanks : blanks.StaysOpen := by
  intro input
  cases hread : blanks input with
  | ok result => exact .inr ⟨result, rfl⟩
  | error => exact absurd hread blanks_ne_error

/-- Lines without a definition give nothing back that they do not come to again. -/
theorem Simulation.emptyLine (hs : Simulation R Past) (h : R input input') :
    InStep R Past (Reader.emptyLine input) (Reader.emptyLine input') := by
  refine hs.label _ ?_ h ?_
  · exact staysOpen_blanks.bind fun _ => staysOpen_commentOrLineBreak
  · obtain ⟨rest, rest', hread, hread', hrest⟩ | ⟨stop, hread, hstop⟩ := hs.blanks h
    · rw [bind_of_ok hread, bind_of_ok hread']
      exact hs.commentOrLineBreak hrest
    · refine .past ?_
      rw [bind_of_ok hread]
      -- An empty line ends there itself, so nothing is given back that it does not come to again.
      obtain hpast | ⟨-, hend⟩ := hstop.cases
      · exact hs.past_of_le hpast (recedes_commentOrLineBreak stop).length_le
      · exact hend

/-! ### Documents -/

section

variable (R : List Octet → List Octet → Prop) (Past : List Octet → Prop) (length length' : Nat)

structure DefinedAlike (definition definition' : Definition) : Prop where
  rule : definition.rule = definition'.rule
  offset : ∃ rest rest', R rest rest' ∧ definition.offset = length - rest.length ∧
    definition'.offset = length' - rest'.length

/-- Two runs over documents have ended in step, or the first one past what is followed or with a
report of what may be completed. -/
inductive ReadAlike (input : List Octet) :
    Except Mismatch (List Definition) → Except Mismatch (List Definition) → Prop where
  | ok {definitions definitions'}
      (h : List.Forall₂ (DefinedAlike R length length') definitions definitions') :
      ReadAlike input (.ok definitions) (.ok definitions')
  | error {rest rest'} (expected : Expected) (committed : Bool) (h : R rest rest') :
      ReadAlike input (.error ⟨expected, rest, committed⟩) (.error ⟨expected, rest', committed⟩)
  | past {outcome outcome'} (hpast : Past []) (h : ∀ mismatch, outcome = .error mismatch →
      Past mismatch.rest ∨ mismatch.expected = .wordValue) : ReadAlike input outcome outcome'
  | tentative {mismatch outcome'} (h : IsTentative input mismatch.expected mismatch.rest)
      (hpast : Past []) : ReadAlike input (.error mismatch) outcome'

end

variable {length length' : Nat}

lemma Reader.definitionsUpTo_rule {turns : Nat} {first : Octet} {others : List Octet}
    (hfirst : first.isAlpha) : definitionsUpTo length (turns + 1) (first :: others) = (do
      let (rule, behind) ← definition (first :: others)
      let definitions ← definitionsUpTo length turns behind
      return ⟨rule, length - (first :: others).length⟩ :: definitions) := by
  simp only [definitionsUpTo, hfirst, if_true]

lemma Reader.definitionsUpTo_emptyLine {turns : Nat} {first : Octet} {others : List Octet}
    (hfirst : first.isAlpha = false) : definitionsUpTo length (turns + 1) (first :: others) = (do
      let ((), behind) ← emptyLine (first :: others)
      definitionsUpTo length turns behind) := by
  simp only [definitionsUpTo, hfirst, Bool.false_eq_true, if_false]

lemma ReadAlike.of_line {outcome outcome' : Except Mismatch (List Definition)}
    (h : ReadAlike R Past length length' input outcome outcome') {whole : List Octet}
    (hline : Line whole input) : ReadAlike R Past length length' whole outcome outcome' := by
  cases h with
  | ok h => exact .ok h
  | error expected committed h => exact .error expected committed h
  | past hpast h => exact .past hpast h
  | tentative h hpast =>
    obtain ⟨start, hlines, hrule⟩ := h
    exact .tentative ⟨start, .head hline hlines, hrule⟩ hpast

lemma ReadAlike.cons {outcome outcome' : Except Mismatch (List Definition)}
    {definition definition' : Definition} (hfirst : DefinedAlike R length length' definition definition')
    (h : ReadAlike R Past length length' input outcome outcome') :
    ReadAlike R Past length length' input (do return definition :: (← outcome))
      (do return definition' :: (← outcome')) := by
  cases h with
  | ok h => exact .ok (.cons hfirst h)
  | error expected committed h => exact .error expected committed h
  | past hpast h =>
    refine .past hpast fun mismatch hmismatch => ?_
    obtain hmismatch | ⟨_, -, hmismatch⟩ := AugmentedBnf.bind_eq_error.mp hmismatch
    · exact h mismatch hmismatch
    · cases hmismatch
  | tentative h hpast => exact .tentative h hpast

/-- One more line, or the mismatch at it. -/
lemma ReadAlike.bind (hs : Simulation R Past)
    {outcome outcome' : Except Mismatch (α × List Octet)}
    {next next' : α × List Octet → Except Mismatch (List Definition)}
    (h : Follows R Past (fun mismatch => Rule.IsTentative input mismatch.expected mismatch.rest)
      (fun _ _ => False) outcome outcome')
    (hrecedes : ∀ {value rest mismatch}, next (value, rest) = .error mismatch →
      mismatch.rest <:+ rest)
    (hnext : ∀ {value rest rest'}, outcome = .ok (value, rest) → outcome' = .ok (value, rest') →
      R rest rest' →
      ReadAlike R Past length length' input (next (value, rest)) (next' (value, rest'))) :
    ReadAlike R Past length length' input (outcome >>= next) (outcome' >>= next') := by
  obtain hin | hloose := h
  · cases hin with
    | ok value hrest => exact hnext rfl rfl hrest
    | error expected committed h => exact .error expected committed h
    | overflow hpast =>
      refine .past hpast fun mismatch hmismatch => .inr ?_
      cases hmismatch
      rfl
    | past hpast =>
      refine .past (hs.past_of_le hpast (Nat.zero_le _)) fun mismatch hmismatch => .inl ?_
      -- This line comes past what is followed, and so does whatever goes wrong behind it.
      obtain rfl | ⟨⟨value, rest⟩, rfl, hmismatch⟩ := AugmentedBnf.bind_eq_error.mp hmismatch
      · exact hpast
      · exact hs.past_of_le hpast (hrecedes hmismatch).length_le
  · cases hloose with
    | ok hends => exact hends.elim
    | error hrule hpast => exact .tentative ⟨input, .refl, hrule⟩ hpast

lemma Reader.emptyLine_length_lt {rest : List Octet} {value : Unit}
    (h : emptyLine input = .ok (value, rest)) : rest.length < input.length := by
  obtain ⟨middle, hsettles, hend⟩ := emptyLine_eq_ok.mp h
  exact hend.length_lt.trans_le hsettles.1.length_le

lemma Simulation.isAlpha_eq (hs : Simulation R Past) {first first' : Octet} {rest rest' : List Octet}
    (h : R (first :: rest) (first' :: rest')) : first'.isAlpha = first.isAlpha := by
  have hbreak : ∀ octet : Octet, octet.isBreak → octet.isAlpha = false :=
    Octet.forall_isBreak.mpr (by decide)
  cases hfirst : first.isBreak with
  | true =>
    obtain ⟨_, _, heq, hfirst'⟩ := hs.cons_break h hfirst
    cases heq
    rw [hbreak first hfirst, hbreak first' hfirst']
  | false =>
    obtain ⟨_, heq, -⟩ := hs.cons h hfirst
    cases heq
    rfl

/-- From inputs that belong together definitions are read alike. -/
theorem Simulation.definitionsUpTo (hs : Simulation R Past) {turns turns' : Nat} (h : R input input')
    (hturns : input.length ≤ turns) (hturns' : input'.length ≤ turns') :
    ReadAlike R Past length length' input (Reader.definitionsUpTo length turns input)
      (Reader.definitionsUpTo length' turns' input') := by
  induction turns generalizing input input' turns' with
  | zero =>
    obtain rfl := List.length_eq_zero_iff.mp (Nat.le_zero.mp hturns)
    obtain rfl := hs.nil h
    rw [definitionsUpTo_nil, definitionsUpTo_nil]
    exact .ok .nil
  | succ turns ih =>
    cases input with
    | nil =>
      obtain rfl := hs.nil h
      rw [definitionsUpTo_nil, definitionsUpTo_nil]
      exact .ok .nil
    | cons first rest =>
      obtain ⟨first', rest', rfl⟩ := hs.exists_cons h
      obtain _ | turns' := turns'
      · simp at hturns'
      have hbehind : ∀ {behind behind'}, R behind behind' → behind.length < (first :: rest).length →
          behind'.length < (first' :: rest').length → ReadAlike R Past length length' behind
            (Reader.definitionsUpTo length turns behind)
            (Reader.definitionsUpTo length' turns' behind') :=
        fun h hleft hright => ih h (Nat.le_of_lt_succ (hleft.trans_le hturns))
          (Nat.le_of_lt_succ (hright.trans_le hturns'))
      have halpha := hs.isAlpha_eq h
      cases hfirst : first.isAlpha with
      | true =>
        rw [definitionsUpTo_rule hfirst, definitionsUpTo_rule (halpha.trans hfirst)]
        refine ReadAlike.bind hs (hs.definition h) (fun {rule behind mismatch} hmismatch => ?_)
          fun {rule behind behind'} hread hread' hrest => ?_
        · obtain hmismatch | ⟨_, -, hmismatch⟩ := AugmentedBnf.bind_eq_error.mp hmismatch
          · exact (definitionsUpTo_eq_error hmismatch).suffix
          · cases hmismatch
        · have hothers := hbehind hrest (derives_of_definition hread).length_lt
            (derives_of_definition hread').length_lt
          exact .cons ⟨rfl, _, _, h, rfl, rfl⟩
            (hothers.of_line (.rule (derives_of_definition hread)))
      | false =>
        rw [definitionsUpTo_emptyLine hfirst, definitionsUpTo_emptyLine (halpha.trans hfirst)]
        refine ReadAlike.bind hs (.inl (hs.emptyLine h))
          (fun {_ behind mismatch} hmismatch => (definitionsUpTo_eq_error hmismatch).suffix)
          fun {_ behind behind'} hread hread' hrest => ?_
        have hothers := hbehind hrest (emptyLine_length_lt hread) (emptyLine_length_lt hread')
        obtain ⟨middle, hsettles, hend⟩ := emptyLine_eq_ok.mp hread
        exact hothers.of_line (.empty hsettles.1 hend)

end AugmentedBnf
