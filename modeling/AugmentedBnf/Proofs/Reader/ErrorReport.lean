import AugmentedBnf.Proofs.Grammar.Grouping
import AugmentedBnf.Proofs.Reader.ErrorPosition
import AugmentedBnf.Proofs.Reader.Remainder
import AugmentedBnf.Proofs.Text.Ascii

/-!
# Errors tell what stands in the input

However a reader fails, what it reports is an end of the input it was given, so that the lengths of
both tell an offset. And definitions are found at the beginning of a line, since nothing but the end
of a line, or of the document, stands before the next definition.

* `ReadError.isFaithful_ofMismatch`: a mismatch whose octets end the input is where it says.
* `DefinitionsDerive.standsIn`: where the definitions of a document stand.
* `read_errors_faithful`: every error of reading is where it says, and tells what is there.
-/

namespace AugmentedBnf

/-- An error says what is so of the input it comes from. Its position is that of one offset. Where
something else is expected the octet there is told, or that there is none, and where a rule is
defined once more there is the name of that rule, as the first of a line. -/
def ReadError.IsFaithful (document : List Octet) : ReadError → Prop
  | .mismatch _ actual position => ∃ offset ≤ document.length,
      (∀ other ≤ document.length, Position.locate document other = position ↔ other = offset) ∧
      actual = document[offset]? ∧ (actual = none ↔ offset = document.length)
  | .collision rule position => ∃ offset < document.length,
      (∀ other ≤ document.length, Position.locate document other = position ↔ other = offset) ∧
      position.column = 1 ∧
      ∃ rest, document.drop offset = Utf8.encode rule ++ rest ∧ Bars Octet.isNameTail rest
  | .stream _ => False

lemma ReadError.isFaithful_ofMismatch {document : List Octet} {mismatch : Mismatch}
    (h : mismatch.rest <:+ document) : (ofMismatch document mismatch).IsFaithful document := by
  obtain ⟨before, rfl⟩ := h
  have hoffset : before.length ≤ (before ++ mismatch.rest).length := by simp
  refine ⟨before.length, hoffset, fun other hother => ?_, ?_, ?_⟩
  · rw [List.length_append, Nat.add_sub_cancel, Position.locate_inj hother hoffset]
  · rw [List.getElem?_append_right (Nat.le_refl _), Nat.sub_self, List.head?_eq_getElem?]
  · rw [List.head?_eq_none_iff, List.length_append, Nat.left_eq_add, List.length_eq_zero_iff]

lemma Alternation.isFaithful_of_read {octets : List Octet} {error : ReadError}
    (h : Alternation.read octets = .error error) : error.IsFaithful octets := by
  have hrecedes : (do let body ← Reader.body; Reader.endOfInput; return body : Reader _).Recedes := by
    refine Reader.recedes_body.bind fun body => ?_
    exact Reader.recedes_endOfInput.bind fun _ => Reader.recedes_pure body
  have hsuffix := hrecedes octets
  simp only [Alternation.read] at h
  split at h
  · cases h
  · rename_i mismatch hread
    rw [hread] at hsuffix
    cases h
    exact ReadError.isFaithful_ofMismatch hsuffix

/-! ### Beginnings of lines -/

/-- What follows the given octets is at the beginning of a line. -/
def EndsLine (before : List Octet) : Prop :=
  before = [] ∨ ∃ others, before = others ++ [Position.lineFeed]

lemma EndsLine.column {before : List Octet} (h : EndsLine before) :
    (Position.behind before).column = 1 := by
  obtain rfl | ⟨others, rfl⟩ := h
  · rfl
  · simp [Position.behind]

/-- A line behind which something is left ends with a line feed. -/
lemma LineEnd.exists_lineFeed {input rest : List Octet} (h : LineEnd input rest)
    (hrest : rest ≠ []) : ∃ others, input = others ++ [Position.lineFeed] ++ rest := by
  have hbreak : ∀ {middle}, LineBreak middle rest →
      ∃ others, middle = others ++ [Position.lineFeed] ++ rest := by
    intro middle hbreak
    cases hbreak with
    | returnAndFeed => exact ⟨['\r'.toUInt8], rfl⟩
    | feed => exact ⟨[], rfl⟩
  cases h with
  | lineBreak h => exact hbreak h
  | @comment text middle _ _ h =>
    obtain ⟨others, rfl⟩ := hbreak h
    exact ⟨';'.toUInt8 :: (text ++ others), by simp⟩
  | lastComment => exact absurd rfl hrest

lemma RuleEnd.exists_lineFeed {input rest : List Octet} (h : RuleEnd input rest)
    (hrest : rest ≠ []) : ∃ others, input = others ++ [Position.lineFeed] ++ rest := by
  cases h with
  | lineEnd hend => exact hend.exists_lineFeed hrest
  | endOfInput => exact absurd rfl hrest

lemma Line.exists_lineFeed {input rest : List Octet} (h : Line input rest) (hrest : rest ≠ []) :
    ∃ others, input = others ++ [Position.lineFeed] ++ rest := by
  cases h with
  | rule hrule =>
    cases hrule with
    | intro hname hmarker hbody hend =>
      obtain ⟨others, rfl⟩ := hend.exists_lineFeed hrest
      obtain ⟨before, rfl⟩ := ((isLocal_body _).suffix hbody).trans
        (((isLocal_marker _).suffix hmarker).trans ((isLocal_name _).suffix hname))
      exact ⟨before ++ others, by simp⟩
  | empty hblanks hend =>
    obtain ⟨others, rfl⟩ := hend.exists_lineFeed hrest
    obtain ⟨before, rfl⟩ := isLocal_blanks.suffix hblanks
    exact ⟨before ++ others, by simp⟩

/-- A definition stands at its offset in a document, and this is the beginning of a line. -/
def Definition.StandsIn (definition : Definition) (document : List Octet) : Prop :=
  ∃ before input rest, document = before ++ input ∧ EndsLine before ∧
    definition.offset = before.length ∧ definition.rule.Derives input rest

/-- The induction goes from line to line, so that what is read is the beginning of a line each time,
or nothing is left. -/
lemma DefinitionsDerive.standsIn {document before input : List Octet}
    {definitions : List Definition} (h : DefinitionsDerive document.length definitions input)
    (hdocument : document = before ++ input) (hbefore : input = [] ∨ EndsLine before) :
    ∀ definition ∈ definitions, definition.StandsIn document := by
  have hnext : ∀ {input rest before}, Line input rest → document = before ++ input →
      ∃ before, document = before ++ rest ∧ (rest = [] ∨ EndsLine before) := by
    intro input rest before hline hdocument
    by_cases hrest : rest = []
    · exact ⟨document, by rw [hrest, List.append_nil], .inl hrest⟩
    · obtain ⟨others, rfl⟩ := hline.exists_lineFeed hrest
      exact ⟨before ++ others ++ [Position.lineFeed], by simp [hdocument], .inr (.inr ⟨_, rfl⟩)⟩
  induction h generalizing before with
  | nil => simp
  | rule hrule _ ih =>
    obtain ⟨following, hfollowing, hstart⟩ := hnext (.rule hrule) hdocument
    refine List.forall_mem_cons.mpr ⟨?_, ih hfollowing hstart⟩
    obtain ⟨first, others, rfl, -⟩ := hrule.head
    refine ⟨before, _, _, hdocument, hbefore.resolve_left (by simp), ?_, hrule⟩
    simp only [hdocument, List.length_append, Nat.add_sub_cancel]
  | emptyLine hblanks hend _ ih =>
    obtain ⟨following, hfollowing, hstart⟩ := hnext (.empty hblanks hend) hdocument
    exact ih hfollowing hstart

/-- The octets of a name are those that it is encoded as. -/
lemma NameDerives.eq_encode_append {name : String} {input rest : List Octet}
    (h : NameDerives name input rest) : input = Utf8.encode name ++ rest := by
  cases h with
  | @intro first tail _ hfirst htail =>
    have hname : ∀ octet ∈ first :: tail, octet < 0x80 :=
      List.forall_mem_cons.mpr ⟨Octet.lt_of_isNameTail (by simp [Octet.isNameTail, hfirst]),
        fun octet hoctet => Octet.lt_of_isNameTail (htail octet hoctet)⟩
    rw [Utf8.encode_ofOctets hname, List.cons_append]

/-- A rule begins with its name, and the whole of it. -/
lemma Rule.Derives.exists_name {rule : Rule} {input rest : List Octet}
    (h : rule.Derives input rest) :
    ∃ afterName, input = Utf8.encode rule.name ++ afterName ∧ Bars Octet.isNameTail afterName := by
  cases h with
  | intro hname hmarker => exact ⟨_, hname.eq_encode_append, Reader.bars_nameTail_of_marker hmarker⟩

lemma Definition.StandsIn.isFaithful {definition : Definition} {document : List Octet}
    (h : definition.StandsIn document) :
    (ReadError.collision definition.rule.name
      (Position.locate document definition.offset)).IsFaithful document := by
  obtain ⟨before, input, rest, rfl, hbefore, hoffset, hrule⟩ := h
  have hlength := hrule.length_lt
  have hlt : before.length < (before ++ input).length := by
    rw [List.length_append]
    omega
  rw [hoffset]
  refine ⟨before.length, hlt, fun other hother => Position.locate_inj hother hlt.le, ?_, ?_⟩
  · rw [Position.locate, List.take_left]
    exact hbefore.column
  · rw [List.drop_left]
    exact hrule.exists_name

lemma Grammar.isFaithful_of_read {document : List Octet} {error : ReadError}
    (h : Grammar.read document = .error error) : error.IsFaithful document := by
  simp only [Grammar.read] at h
  split at h
  · rename_i mismatch hmismatch
    obtain ⟨octets, _, rfl, -⟩ := Reader.definitions_eq_error hmismatch
    cases h
    exact ReadError.isFaithful_ofMismatch (List.suffix_append octets mismatch.rest)
  · rename_i definitions hdefinitions
    split at h
    · rename_i definition hmerge
      obtain ⟨earlier, later, rfl, -⟩ := Definition.merge_eq_error.mp hmerge
      have hdocument := Reader.definitions_eq_ok.mp hdefinitions
      cases h
      exact (hdocument.standsIn rfl (.inr (.inl rfl)) definition (by simp)).isFaithful
    · cases h

/-- Every error says what is so of the input: where the octets of a document are no grammar, and
where the octets of a text are no rule body. -/
theorem read_errors_faithful :
    (∀ document error, Grammar.read document = .error error → error.IsFaithful document) ∧
    ∀ text error, Alternation.ofText text = .error error →
      error.IsFaithful (Utf8.encode text) :=
  ⟨fun _ _ => Grammar.isFaithful_of_read, fun _ _ => Alternation.isFaithful_of_read⟩

/-- A rule is defined again on the second line, and a body ends before its second branch. -/
theorem read_errors_faithful_brokenLines :
    Grammar.read (Utf8.encode "ab = c\nab = d\n") = .error (.collision "ab" ⟨2, 1⟩) ∧
      (ReadError.collision "ab" ⟨2, 1⟩).IsFaithful (Utf8.encode "ab = c\nab = d\n") ∧
      Alternation.ofText "c\n / " = .error (.mismatch .element none ⟨2, 4⟩) ∧
      (ReadError.mismatch .element none ⟨2, 4⟩).IsFaithful (Utf8.encode "c\n / ") := by
  have hcollision : Grammar.read (Utf8.encode "ab = c\nab = d\n") =
      .error (.collision "ab" ⟨2, 1⟩) := by decide +kernel
  have hmismatch : Alternation.ofText "c\n / " = .error (.mismatch .element none ⟨2, 4⟩) := by
    decide +kernel
  exact ⟨hcollision, read_errors_faithful.1 _ _ hcollision, hmismatch,
    read_errors_faithful.2 _ _ hmismatch⟩

end AugmentedBnf
