import AugmentedBnf.Proofs.Reader.Completeness
import AugmentedBnf.Reader.Document

/-!
# Documents are read as they are derived

Where a line end is followed by an indented line without a definition, a derivation may end a rule
at the first line or go on to the second, and the reader always goes on. The lemmas on settling show
that this choice does not touch the definitions.
-/

namespace AugmentedBnf

lemma LineEnd.closesAlternation {input rest : List Octet} (h : LineEnd input rest) :
    ∀ octet ∈ input.head?, octet.closesAlternation := by
  obtain ⟨first, others, rfl, hfirst⟩ := h.head
  intro octet hoctet
  cases hoctet
  rcases hfirst with rfl | rfl | rfl <;> decide

lemma RuleEnd.closesAlternation {input rest : List Octet} (h : RuleEnd input rest) :
    ∀ octet ∈ input.head?, octet.closesAlternation := by
  cases h with
  | lineEnd hend => exact hend.closesAlternation
  | endOfInput => simp

lemma not_isWhiteSpace_of_lineEnd {octet : Octet} {input rest : List Octet}
    (h : LineEnd (octet :: input) rest) : octet.isWhiteSpace = false := by
  obtain ⟨first, others, heq, hfirst⟩ := h.head
  cases heq
  rcases hfirst with rfl | rfl | rfl <;> decide

lemma NameDerives.head {name : String} {input rest : List Octet}
    (h : NameDerives name input rest) :
    ∃ first others, input = first :: others ∧ first.isAlpha := by
  cases h with
  | intro _ hfirst => exact ⟨_, _, rfl, hfirst⟩

lemma Rule.Derives.head {rule : Rule} {input rest : List Octet} (h : rule.Derives input rest) :
    ∃ first others, input = first :: others ∧ first.isAlpha := by
  cases h with
  | intro hname => exact hname.head

lemma RuleEnd.length_le {input rest : List Octet} (h : RuleEnd input rest) :
    rest.length ≤ input.length := by
  cases h with
  | lineEnd hend => exact hend.length_lt.le
  | endOfInput => exact le_refl _

lemma Marker.Derives.length_lt {value : Marker} {input rest : List Octet}
    (h : value.Derives input rest) : rest.length < input.length := by
  cases h with
  | basic hbefore hbehind =>
    have hbefore := hbefore.length_le
    have hbehind := hbehind.length_le
    simp only [List.length_cons] at hbefore
    omega
  | incremental hbefore hbehind =>
    have hbefore := hbefore.length_le
    have hbehind := hbehind.length_le
    simp only [List.length_cons] at hbefore
    omega

lemma Rule.Derives.length_lt {rule : Rule} {input rest : List Octet}
    (h : rule.Derives input rest) : rest.length < input.length := by
  cases h with
  | intro hname hmarker hbody hend =>
    obtain ⟨stop, hbody, hblanks⟩ := hbody
    calc
      _ ≤ _ := hend.length_le
      _ ≤ _ := hblanks.length_le
      _ < _ := hbody.length_lt
      _ < _ := hmarker.length_lt
      _ < _ := hname.length_lt

/-- Behind a line end that is followed by white space the definitions can only begin with a line
that has none. -/
lemma DefinitionsDerive.blanks_of_whiteSpace {length : Nat} {definitions : List Definition}
    {octet : Octet} {input : List Octet} (hspace : octet.isWhiteSpace)
    (h : DefinitionsDerive length definitions (octet :: input)) :
    ∃ middle rest, Blanks input middle ∧ LineEnd middle rest ∧
      DefinitionsDerive length definitions rest := by
  have hhead : octet.opensBlank := by simp [Octet.opensBlank, hspace]
  cases h with
  | rule hrule =>
    obtain ⟨first, others, heq, hfirst⟩ := hrule.head
    cases heq
    rw [(Octet.not_of_opensBlank hhead).2.1] at hfirst
    contradiction
  | @emptyLine _ _ middle rest hblanks hend hothers =>
    obtain rfl | ⟨next, hblank, hbehind⟩ := Relation.ReflTransGen.cases_head hblanks
    · rw [not_isWhiteSpace_of_lineEnd hend] at hspace
      contradiction
    · obtain rfl := hblank.unique (Blank.whiteSpace input hspace)
      exact ⟨middle, rest, hbehind, hend, hothers⟩

/-- The line end that a derivation takes may be put off until no blanks are left. -/
lemma DefinitionsDerive.settle {length : Nat} {definitions : List Definition}
    {input rest : List Octet} (hend : LineEnd input rest)
    (h : DefinitionsDerive length definitions rest) :
    ∃ stop behind, Settles input stop ∧ LineEnd stop behind ∧
      DefinitionsDerive length definitions behind := by
  induction hlength : input.length using Nat.strong_induction_on generalizing input rest with
  | _ size ih =>
    by_cases hindented : ∃ octet others, rest = octet :: others ∧ octet.isWhiteSpace
    · -- The next line is indented, so the line end is a blank, and the next one takes its place.
      obtain ⟨octet, others, rfl, hspace⟩ := hindented
      obtain ⟨middle, next, hblanks, hnext, hothers⟩ := h.blanks_of_whiteSpace hspace
      have hblank : Blank input others := Blank.indentedLine hend hspace
      have hshorter := hblanks.length_le.trans_lt hblank.length_lt
      obtain ⟨stop, behind, hsettles, hstop⟩ := ih _ (hlength ▸ hshorter) hnext hothers rfl
      exact ⟨stop, behind, Settles.head (Relation.ReflTransGen.head hblank hblanks) hsettles,
        hstop⟩
    · refine ⟨input, rest, ⟨Relation.ReflTransGen.refl, fun next hblank => ?_⟩, hend, h⟩
      cases hblank with
      | whiteSpace _ hspace =>
        rw [not_isWhiteSpace_of_lineEnd hend] at hspace
        contradiction
      | indentedLine hother hspace => exact hindented ⟨_, _, hend.unique hother, hspace⟩

lemma DefinitionsDerive.settle_ruleEnd {length : Nat} {definitions : List Definition}
    {input rest : List Octet} (hend : RuleEnd input rest)
    (h : DefinitionsDerive length definitions rest) :
    ∃ stop behind, Settles input stop ∧ RuleEnd stop behind ∧
      DefinitionsDerive length definitions behind := by
  cases hend with
  | lineEnd hend =>
    obtain ⟨stop, behind, hsettles, hstop, hothers⟩ := h.settle hend
    exact ⟨stop, behind, hsettles, RuleEnd.lineEnd hstop, hothers⟩
  | endOfInput =>
    refine ⟨[], [], ⟨Relation.ReflTransGen.refl, fun _ hblank => ?_⟩, RuleEnd.endOfInput, h⟩
    obtain ⟨_, _, heq, _⟩ := hblank.head
    cases heq

namespace Reader

/-! ### Definitions -/

lemma ruleEnd_eq_ok {input rest : List Octet} {value : Unit} :
    label .commentOrLineBreak (or commentOrLineBreak endOfInput) input = .ok (value, rest) ↔
      RuleEnd input rest := by
  simp only [label_eq_ok, or_eq_ok, commentOrLineBreak_eq_ok, endOfInput_eq_ok]
  constructor
  · intro h
    obtain hend | ⟨-, rfl, rfl⟩ := h
    · exact RuleEnd.lineEnd hend
    · exact RuleEnd.endOfInput
  · intro h
    cases h with
    | lineEnd hend => exact Or.inl hend
    | endOfInput =>
      refine Or.inr ⟨staysOpen_commentOrLineBreak.declines_iff.mpr fun _ _ hread => ?_, rfl, rfl⟩
      obtain ⟨_, _, heq, _⟩ := (commentOrLineBreak_eq_ok.mp hread).head
      cases heq

lemma derives_of_marker {input rest : List Octet} {value : Marker}
    (h : marker input = .ok (value, rest)) : value.Derives input rest := by
  simp only [marker, bind_eq_ok, blanks_eq_ok, exactly_eq_ok, optional_eq_ok, pure_eq_ok] at h
  obtain ⟨-, _, hbefore, -, _, rfl, slash, _, ⟨_, rfl, rfl⟩ | ⟨-, rfl, rfl⟩, -, _, hbehind, h⟩ := h
  · cases h
    exact Marker.Derives.incremental hbefore.1 hbehind.1
  · cases h
    exact Marker.Derives.basic hbefore.1 hbehind.1

lemma slash_declines {input rest : List Octet} (hblanks : Blanks input rest)
    (hrest : ∃ first others, rest = first :: others ∧ first.opensRepetition) :
    (exactly .incrementalSlash '/').Declines input := by
  obtain rfl | ⟨first, others, rfl, hopens⟩ := hblanks.cases_opens
  · obtain ⟨first, others, rfl, hopens⟩ := hrest
    exact exactly_declines.mpr
      (bars_cons (beq_eq_false_iff_ne.mpr (Octet.not_of_opensRepetition hopens).2))
  · exact exactly_declines.mpr
      (bars_cons (beq_eq_false_iff_ne.mpr (Octet.not_of_opensBlank hopens).2.2))

lemma marker_of_derives {input rest : List Octet} {value : Marker} (h : value.Derives input rest)
    (hrest : ∃ octet others, rest = octet :: others ∧ octet.opensRepetition) :
    marker input = .ok (value, rest) := by
  have hsettles : ∀ {middle}, Blanks middle rest → Settles middle rest := by
    intro middle hblanks
    obtain ⟨_, _, rfl, hopens⟩ := hrest
    exact Settles.of_opens hblanks hopens
  simp only [marker, bind_eq_ok, blanks_eq_ok, exactly_eq_ok, optional_eq_ok, pure_eq_ok]
  cases h with
  | basic hbefore hbehind =>
    exact ⟨(), _, Settles.of_head hbefore (by decide), (), _, rfl, none, _,
      Or.inr ⟨slash_declines hbehind hrest, rfl, rfl⟩, (), rest, hsettles hbehind, rfl⟩
  | incremental hbefore hbehind =>
    exact ⟨(), _, Settles.of_head hbefore (by decide), (), _, rfl, some (), _,
      Or.inl ⟨(), rfl, rfl⟩, (), rest, hsettles hbehind, rfl⟩

lemma bars_nameTail_of_marker {input rest : List Octet} {value : Marker}
    (h : value.Derives input rest) : Bars Octet.isNameTail input := by
  have hequals : ∃ middle, Blanks input ('='.toUInt8 :: middle) := by
    cases h with
    | basic hbefore => exact ⟨_, hbefore⟩
    | incremental hbefore => exact ⟨_, hbefore⟩
  obtain ⟨middle, hblanks⟩ := hequals
  obtain rfl | ⟨first, others, rfl, hopens⟩ := hblanks.cases_opens
  · exact bars_cons (by decide)
  · exact bars_cons (Bool.or_eq_false_iff.mp (Octet.not_of_opensBlank hopens).1).1

lemma derives_of_definition {input rest : List Octet} {value : Rule}
    (h : definition input = .ok (value, rest)) : value.Derives input rest := by
  simp only [definition, bind_eq_ok, commit_eq_ok, ruleName_eq_ok, ruleEnd_eq_ok, pure_eq_ok] at h
  obtain ⟨name, _, ⟨hname, -⟩, marker, _, hmarker, body, _, hbody, -, _, hend, h⟩ := h
  cases h
  obtain ⟨stop, hbody, hsettles⟩ := derives_of_body hbody
  exact Rule.Derives.intro hname (derives_of_marker hmarker) ⟨stop, hbody, hsettles.1⟩ hend

lemma definition_of_derives {name : String} {value : Marker} {body : Alternation}
    {input afterName afterMarker stop last rest : List Octet}
    (hname : NameDerives name input afterName) (hmarker : value.Derives afterName afterMarker)
    (hbody : body.Derives afterMarker stop) (hsettles : Settles stop last)
    (hend : RuleEnd last rest) : definition input = .ok (⟨name, value, body⟩, rest) := by
  simp only [definition, bind_eq_ok, commit_eq_ok, ruleName_eq_ok, ruleEnd_eq_ok, pure_eq_ok]
  exact ⟨name, afterName, ⟨hname, bars_nameTail_of_marker hmarker⟩, value, afterMarker,
    marker_of_derives hmarker hbody.head, body, last,
    body_of_derives hbody hsettles hend.closesAlternation, (), rest, hend, rfl⟩

lemma emptyLine_eq_ok {input rest : List Octet} {value : Unit} :
    emptyLine input = .ok (value, rest) ↔ ∃ middle, Settles input middle ∧ LineEnd middle rest := by
  simp only [emptyLine, label_eq_ok, bind_eq_ok, blanks_eq_ok, commentOrLineBreak_eq_ok]
  constructor
  · intro h
    obtain ⟨-, middle, hsettles, hend⟩ := h
    exact ⟨middle, hsettles, hend⟩
  · intro h
    obtain ⟨middle, hsettles, hend⟩ := h
    exact ⟨(), middle, hsettles, hend⟩

/-! ### Documents -/

lemma definitionsUpTo_rule_eq_ok {length turns : Nat} {first : Octet} {others : List Octet}
    {definitions : List Definition} (hfirst : first.isAlpha) :
    definitionsUpTo length (turns + 1) (first :: others) = .ok definitions ↔
      ∃ rule rest behind, definition (first :: others) = .ok (rule, rest) ∧
        definitionsUpTo length turns rest = .ok behind ∧
        ⟨rule, length - (first :: others).length⟩ :: behind = definitions := by
  simp only [definitionsUpTo, hfirst, if_true, AugmentedBnf.bind_eq_ok, Prod.exists]
  constructor
  · intro h
    obtain ⟨rule, rest, hrule, behind, hbehind, h⟩ := h
    cases h
    exact ⟨rule, rest, behind, hrule, hbehind, rfl⟩
  · intro h
    obtain ⟨rule, rest, behind, hrule, hbehind, rfl⟩ := h
    exact ⟨rule, rest, hrule, behind, hbehind, rfl⟩

lemma definitionsUpTo_emptyLine_eq_ok {length turns : Nat} {first : Octet} {others : List Octet}
    {definitions : List Definition} (hfirst : first.isAlpha = false) :
    definitionsUpTo length (turns + 1) (first :: others) = .ok definitions ↔
      ∃ rest, emptyLine (first :: others) = .ok ((), rest) ∧
        definitionsUpTo length turns rest = .ok definitions := by
  simp only [definitionsUpTo, hfirst, Bool.false_eq_true, if_false]
  cases emptyLine (first :: others) with
  | error => simp [bind, Except.bind]
  | ok result => simp [bind, Except.bind, Prod.ext_iff]

lemma definitionsDerive_of_definitionsUpTo {length turns : Nat} {input : List Octet}
    {definitions : List Definition} (h : definitionsUpTo length turns input = .ok definitions) :
    DefinitionsDerive length definitions input := by
  induction turns generalizing input definitions with
  | zero =>
    cases input with
    | nil =>
      cases h
      exact DefinitionsDerive.nil
    | cons => cases h
  | succ turns ih =>
    cases input with
    | nil =>
      cases h
      exact DefinitionsDerive.nil
    | cons first others =>
      by_cases hfirst : first.isAlpha = true
      · obtain ⟨rule, rest, behind, hrule, hbehind, rfl⟩ := (definitionsUpTo_rule_eq_ok hfirst).mp h
        exact DefinitionsDerive.rule (derives_of_definition hrule) (ih hbehind)
      · rw [Bool.not_eq_true] at hfirst
        obtain ⟨rest, hline, hbehind⟩ := (definitionsUpTo_emptyLine_eq_ok hfirst).mp h
        obtain ⟨middle, hsettles, hend⟩ := emptyLine_eq_ok.mp hline
        exact DefinitionsDerive.emptyLine hsettles.1 hend (ih hbehind)

lemma not_isAlpha_of_emptyLine {first : Octet} {others middle rest : List Octet}
    (hblanks : Blanks (first :: others) middle) (hend : LineEnd middle rest) :
    first.isAlpha = false := by
  obtain rfl | ⟨_, _, heq, hopens⟩ := hblanks.cases_opens
  · obtain ⟨_, _, heq, hfirst⟩ := hend.head
    cases heq
    rcases hfirst with rfl | rfl | rfl <;> decide
  · cases heq
    exact (Octet.not_of_opensBlank hopens).2.1

lemma definitionsUpTo_of_definitionsDerive {length turns : Nat} {input : List Octet}
    {definitions : List Definition} (h : DefinitionsDerive length definitions input)
    (hturns : input.length ≤ turns) : definitionsUpTo length turns input = .ok definitions := by
  induction turns generalizing input definitions with
  | zero =>
    cases h with
    | nil => rfl
    | rule hrule =>
      obtain ⟨_, _, rfl, -⟩ := hrule.head
      cases hturns
    | emptyLine hblanks hend =>
      have hshorter := hend.length_lt.trans_le hblanks.length_le
      omega
  | succ turns ih =>
    cases h with
    | nil => rfl
    | rule hrule hothers =>
      cases hrule with
      | intro hname hmarker hbody hend =>
        obtain ⟨first, others, rfl, hfirst⟩ := hname.head
        obtain ⟨stop, hbody, hblanks⟩ := hbody
        -- The reader goes on to where no blanks are left, perhaps behind the end of the rule.
        obtain ⟨last, rest, hsettles, hend, hothers⟩ := hothers.settle_ruleEnd hend
        have hrule := definition_of_derives hname hmarker hbody
          (Settles.head hblanks hsettles) hend
        have hshorter := (derives_of_definition hrule).length_lt
        exact (definitionsUpTo_rule_eq_ok hfirst).mpr
          ⟨_, rest, _, hrule, ih hothers (by omega), rfl⟩
    | emptyLine hblanks hend hothers =>
      obtain ⟨last, rest, hsettles, hend, hothers⟩ := hothers.settle hend
      have hsettles := Settles.head hblanks hsettles
      have hshorter := hend.length_lt.trans_le hsettles.1.length_le
      cases input with
      | nil => cases hshorter
      | cons first others =>
        exact (definitionsUpTo_emptyLine_eq_ok (not_isAlpha_of_emptyLine hsettles.1 hend)).mpr
          ⟨rest, emptyLine_eq_ok.mpr ⟨last, hsettles, hend⟩, ih hothers (by omega)⟩

lemma definitions_eq_ok {document : List Octet} {values : List Definition} :
    definitions document = .ok values ↔ IsDocument values document := by
  constructor
  · intro h
    exact definitionsDerive_of_definitionsUpTo h
  · intro h
    exact definitionsUpTo_of_definitionsDerive h (le_refl _)

end Reader

/-- A line end may be put off: the line with a space is blank, whether the rule takes it or not. -/
example : IsDocument [⟨⟨"a", .basic, [[⟨none, .reference "b"⟩]]⟩, 1⟩]
    (Utf8.encode "\na=b\n \n") :=
  Reader.definitions_eq_ok.mp (by decide +kernel)

lemma Grammar.read_eq_mismatch {document : List Octet} :
    (∃ expected actual position,
      Grammar.read document = .error (.mismatch expected actual position)) ↔
      ∃ mismatch, Reader.definitions document = .error mismatch := by
  simp only [Grammar.read]
  cases Reader.definitions document with
  | error mismatch => simp [ReadError.ofMismatch]
  | ok definitions =>
    simp only [reduceCtorEq, exists_false, iff_false, not_exists]
    cases Definition.merge definitions <;> simp

/-- Octets are read with a mismatch exactly if they are no document. From a document, whichever way
it is derived, the definitions of its derivation are read, so that all derivations agree. -/
theorem Grammar.reads_exactly_documents (document : List Octet) :
    ((∃ expected actual position,
        Grammar.read document = .error (.mismatch expected actual position)) ↔
      ¬ ∃ definitions, IsDocument definitions document) ∧
    (∀ definitions, IsDocument definitions document →
      Reader.definitions document = .ok definitions) ∧
    ∀ definitions others, IsDocument definitions document → IsDocument others document →
      definitions = others := by
  refine ⟨?_, fun definitions h => Reader.definitions_eq_ok.mpr h, ?_⟩
  · simp only [Grammar.read_eq_mismatch, ← Reader.definitions_eq_ok]
    cases Reader.definitions document <;> simp
  · intro definitions others h hothers
    have hread := Reader.definitions_eq_ok.mpr h
    rw [Reader.definitions_eq_ok.mpr hothers] at hread
    cases hread
    rfl

end AugmentedBnf
