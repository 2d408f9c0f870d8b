import AugmentedBnf.Proofs.Position
import AugmentedBnf.Proofs.Reader.Document
import AugmentedBnf.Proofs.Reader.Failure

/-!
# Where reading a document fails

The lines of a document are read one after another, and each of them fails only inside of itself. So
the octets of a document before a mismatch can be continued to a document.

* `Reader.definitions_eq_error`: a document is broken off where its readers report a mismatch.
* `Grammar.reads_before_mismatch`: the same for the position that is reported.
-/

namespace AugmentedBnf

/-- A rule, or a line without one. -/
inductive Line : List Octet → List Octet → Prop where
  | rule {rule input rest} (hrule : Rule.Derives rule input rest) : Line input rest
  | empty {input middle rest} (hblanks : Blanks input middle) (hend : LineEnd middle rest) :
      Line input rest

def Lines : List Octet → List Octet → Prop := Relation.ReflTransGen Line

lemma Lines.exists_definitionsDerive {input : List Octet} (length : Nat) (h : Lines input []) :
    ∃ definitions, DefinitionsDerive length definitions input := by
  induction h using Relation.ReflTransGen.head_induction_on with
  | refl => exact ⟨[], .nil⟩
  | head hline _ ih =>
    obtain ⟨definitions, hothers⟩ := ih
    cases hline with
    | rule hrule => exact ⟨_, .rule hrule hothers⟩
    | empty hblanks hend => exact ⟨definitions, .emptyLine hblanks hend hothers⟩

/-- A line behind which something is left does not end with the document. -/
lemma Line.exists_takes {input rest : List Octet} (h : Line input rest) (hrest : rest ≠ []) :
    ∃ word, input = word ++ rest ∧ Takes Line word := by
  cases h with
  | rule hrule =>
    obtain ⟨word, rfl, hword⟩ := hrule.exists_takes hrest
    exact ⟨word, rfl, fun rest => .rule (hword rest)⟩
  | empty hblanks hend =>
    obtain ⟨before, rfl, hbefore⟩ := isLocal_blanks _ _ hblanks
    obtain ⟨word, rfl, hword⟩ := hend.exists_takes hrest
    refine ⟨before ++ word, by rw [List.append_assoc], fun rest => ?_⟩
    rw [List.append_assoc]
    exact .empty (hbefore _) (hword rest)

lemma Within.lines {input middle rest : List Octet} (hline : Line input middle)
    (hmiddle : middle ≠ []) (h : Within Lines middle rest) : Within Lines input rest := by
  obtain ⟨word, rfl, hword⟩ := hline.exists_takes hmiddle
  refine h.after word fun others hothers rest => ?_
  rw [List.append_assoc]
  exact .head (hword _) (hothers rest)

lemma Takes.body {body : Alternation} {word : List Octet} (h : Takes body.Derives word) :
    Takes body.DerivesBody word :=
  fun rest => ⟨rest, h rest, .refl⟩

lemma takes_body_a : Takes (Alternation.DerivesBody [[⟨none, .reference "a"⟩]]) ['a'.toUInt8] :=
  Takes.body fun rest => .single (.single (.once (.reference (takes_name_a rest))))

lemma Takes.basic {before : List Octet} (hbefore : Takes Blanks before) :
    Takes Marker.basic.Derives (before ++ ['='.toUInt8]) := by
  intro rest
  rw [List.append_assoc]
  exact .basic (hbefore _) .refl

namespace Reader

variable {mismatch : Mismatch} {input : List Octet}

lemma marker_eq_error (h : marker input = .error mismatch) : Blanks input mismatch.rest := by
  simp only [marker, bind_eq_error, blanks_ne_error, (staysOpen_exactly _ _).optional_ne_error,
    pure_ne_error, and_false, exists_false, or_false, false_or] at h
  obtain ⟨_, middle, hblanks, h⟩ := h
  exact exactly_eq_error h ▸ (blanks_eq_ok.mp hblanks).1

lemma ruleEnd_eq_error
    (h : label .commentOrLineBreak (or commentOrLineBreak endOfInput) input = .error mismatch) :
    Within LineEnd input mismatch.rest := by
  obtain h | h := label_eq_error h
  · exact h ▸ takes_lineEnd_feed.within_self
  · obtain h | h := or_eq_error h
    · exact commentOrLineBreak_eq_error h
    · exact endOfInput_eq_error h ▸ takes_lineEnd_feed.within_self

lemma definition_eq_error (h : definition input = .error mismatch) :
    ∃ rule : Rule, Within rule.Derives input mismatch.rest := by
  have hequals := Takes.basic takes_blanks_nil
  obtain herror | ⟨name, behind, hname, hbehind⟩ := bind_eq_error.mp h
  · obtain rfl := ruleName_eq_error herror
    exact ⟨_, (Takes.rule takes_name_a hequals takes_body_a takes_lineEnd_feed).within_self⟩
  obtain ⟨other, hinside, hrest⟩ := commit_eq_error hbehind
  rw [← hrest]
  obtain ⟨first, heq, hfirst⟩ := isLocal_name _ _ _ (ruleName_eq_ok.mp hname).1
  rw [heq]
  simp only [bind_eq_error, pure_ne_error, and_false, exists_false, or_false] at hinside
  obtain herror | ⟨marker, middle, hmarker, herror | ⟨body, stop, hbody, herror⟩⟩ := hinside
  · obtain ⟨before, rfl, hbefore⟩ := isLocal_blanks _ _ (marker_eq_error herror)
    have hrule := Takes.rule hfirst (Takes.basic hbefore) takes_body_a takes_lineEnd_feed
    rw [← List.append_assoc]
    exact ⟨_, Within.of_takes (first ++ before) (by simpa only [List.append_assoc] using hrule)⟩
  all_goals obtain ⟨second, rfl, hsecond⟩ := isLocal_marker _ _ _ (derives_of_marker hmarker)
  · -- The body goes on, and a line feed ends the rule behind it.
    obtain ⟨body, hbody⟩ := body_eq_error herror
    rw [← List.append_assoc]
    refine ⟨⟨name, marker, body⟩, hbody.wrap _ fun word hword => ⟨['\n'.toUInt8], ?_⟩⟩
    rw [List.append_assoc]
    exact Takes.rule hfirst hsecond hword.body takes_lineEnd_feed
  · -- The body is read, and what is missing is the end of the rule.
    obtain ⟨last, hbody, hsettles⟩ := derives_of_body hbody
    obtain ⟨third, rfl, hthird⟩ := isLocal_body _ _ _ ⟨last, hbody, hsettles.1⟩
    refine ⟨⟨name, marker, body⟩, ?_⟩
    simp only [← List.append_assoc]
    refine (ruleEnd_eq_error herror).after _ fun word hword => ?_
    simp only [List.append_assoc]
    exact Takes.rule hfirst hsecond hthird hword

lemma emptyLine_eq_error (h : emptyLine input = .error mismatch) :
    ∃ middle, Blanks input middle ∧ Within LineEnd middle mismatch.rest := by
  obtain h | h := label_eq_error h
  · exact ⟨input, .refl, h ▸ takes_lineEnd_feed.within_self⟩
  · simp only [bind_eq_error, blanks_ne_error, false_or] at h
    obtain ⟨_, middle, hblanks, h⟩ := h
    exact ⟨middle, (blanks_eq_ok.mp hblanks).1, commentOrLineBreak_eq_error h⟩

/-! ### Documents -/

lemma definitionsUpTo_nil {length turns : Nat} : definitionsUpTo length turns [] = .ok [] := by
  cases turns <;> rfl

lemma definitionsUpTo_eq_error {length turns : Nat}
    (h : definitionsUpTo length turns input = .error mismatch) :
    Within Lines input mismatch.rest := by
  have hnil : Takes Lines [] := fun _ => .refl
  have hbehind : ∀ {turns rest}, definitionsUpTo length turns rest = .error mismatch →
      rest ≠ [] := by
    rintro turns rest h rfl
    rw [definitionsUpTo_nil] at h
    contradiction
  induction turns generalizing input with
  | zero =>
    cases input with
    | nil => cases h
    | cons =>
      cases h
      exact hnil.within_self
  | succ turns ih =>
    cases input with
    | nil => cases h
    | cons first others =>
      simp only [definitionsUpTo] at h
      split_ifs at h
      · simp only [AugmentedBnf.bind_eq_error, Prod.exists] at h
        obtain h | ⟨rule, rest, hrule, h | ⟨_, -, h⟩⟩ := h
        · obtain ⟨rule, hrule⟩ := definition_eq_error h
          exact hrule.after [] fun _ hword rest => .single (.rule (hword rest))
        · exact (ih h).lines (.rule (derives_of_definition hrule)) (hbehind h)
        · cases h
      · obtain h | ⟨⟨_, rest⟩, hline, h⟩ := AugmentedBnf.bind_eq_error.mp h
        · obtain ⟨middle, hblanks, hend⟩ := emptyLine_eq_error h
          obtain ⟨before, heq, hbefore⟩ := isLocal_blanks _ _ hblanks
          rw [heq]
          refine hend.after before fun word hword rest => ?_
          rw [List.append_assoc]
          exact .single (.empty (hbefore _) (hword rest))
        · obtain ⟨middle, hsettles, hend⟩ := emptyLine_eq_ok.mp hline
          exact (ih h).lines (.empty hsettles.1 hend) (hbehind h)

/-- The octets before a mismatch begin a document. -/
lemma definitions_eq_error {document : List Octet} (h : definitions document = .error mismatch) :
    ∃ octets tail, document = octets ++ mismatch.rest ∧
      ∃ values, IsDocument values (octets ++ tail) := by
  obtain ⟨octets, tail, heq, htakes⟩ := definitionsUpTo_eq_error h
  have hlines := htakes []
  rw [List.append_nil] at hlines
  exact ⟨octets, tail, heq, hlines.exists_definitionsDerive _⟩

end Reader

/-- A document gives a grammar or a rule that is defined once more. -/
lemma IsDocument.read {definitions : List Definition} {document : List Octet}
    (h : IsDocument definitions document) :
    (∃ grammar, Grammar.read document = .ok grammar) ∨
      ∃ rule position, Grammar.read document = .error (.collision rule position) := by
  simp only [Grammar.read, Reader.definitions_eq_ok.mpr h]
  cases Definition.merge definitions with
  | ok rules => exact Or.inl ⟨_, rfl⟩
  | error definition => exact Or.inr ⟨_, _, rfl⟩

/-- The position of a mismatch is that of one offset, and with other octets from this offset on, the
document can be read: it gives a grammar, or a rule of it is defined once more. -/
theorem Grammar.reads_before_mismatch {document : List Octet} {expected : Expected}
    {actual : Option Octet} {position : Position}
    (h : Grammar.read document = .error (.mismatch expected actual position)) :
    ∃ offset ≤ document.length,
      (∀ other ≤ document.length, Position.locate document other = position ↔ other = offset) ∧
      ∃ tail, (∃ grammar, Grammar.read (document.take offset ++ tail) = .ok grammar) ∨
        ∃ rule place, Grammar.read (document.take offset ++ tail) =
          .error (.collision rule place) := by
  obtain ⟨mismatch, hmismatch⟩ := Grammar.read_eq_mismatch.mp ⟨_, _, _, h⟩
  obtain ⟨octets, tail, rfl, values, hdocument⟩ := Reader.definitions_eq_error hmismatch
  have hposition : Position.locate (octets ++ mismatch.rest) octets.length = position := by
    simp only [Grammar.read, hmismatch, ReadError.ofMismatch, Except.error.injEq,
      ReadError.mismatch.injEq] at h
    rw [← h.2.2, List.length_append, Nat.add_sub_cancel]
  have hlength : octets.length ≤ (octets ++ mismatch.rest).length := by simp
  refine ⟨octets.length, hlength, fun other hother => ?_, tail, ?_⟩
  · rw [← hposition, Position.locate_inj hother hlength]
  · rw [List.take_left]
    exact hdocument.read

/-- The element of a branch is missing, with which and a closing parenthesis the rule goes on. -/
theorem Grammar.reads_before_mismatch_unfinishedGroup :
    Grammar.read (Utf8.encode "a = ( b / 3\n") =
        .error (.mismatch .element (some 0x0A) ⟨1, 12⟩) ∧
      ∃ offset ≤ (Utf8.encode "a = ( b / 3\n").length,
        (∀ other ≤ (Utf8.encode "a = ( b / 3\n").length,
          Position.locate (Utf8.encode "a = ( b / 3\n") other = ⟨1, 12⟩ ↔ other = offset) ∧
        ∃ tail,
          (∃ grammar, Grammar.read ((Utf8.encode "a = ( b / 3\n").take offset ++ tail) =
            .ok grammar) ∨
          ∃ rule place, Grammar.read ((Utf8.encode "a = ( b / 3\n").take offset ++ tail) =
            .error (.collision rule place) := by
  have hread : Grammar.read (Utf8.encode "a = ( b / 3\n") =
      .error (.mismatch .element (some 0x0A) ⟨1, 12⟩) := by decide +kernel
  exact ⟨hread, Grammar.reads_before_mismatch hread⟩

end AugmentedBnf
