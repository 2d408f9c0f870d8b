import AugmentedBnf.Grammar.Render
import AugmentedBnf.Proofs.Grammar.Merge
import AugmentedBnf.Proofs.Grammar.WellFormed

/-!
# Reading what was rendered

The written form of a well-formed value derives this value, and what reads back is derived and so
well-formed. Readers take what is derived, hence exactly the well-formed values are read back as
they were.
-/

namespace AugmentedBnf

open Utf8

lemma blank_space (rest : List Octet) : Blank (' '.toUInt8 :: rest) rest :=
  Blank.whiteSpace rest (by decide)

lemma blanks_space (rest : List Octet) : Blanks (' '.toUInt8 :: rest) rest :=
  Relation.ReflTransGen.single (blank_space rest)

lemma toNat_lt_of_isAlphanum {char : Char} (h : char.isAlphanum ∨ char = '-') :
    char.toNat < 0x80 := by
  obtain h | rfl := h
  · unfold Char.isAlphanum Char.isAlpha Char.isUpper Char.isLower Char.isDigit at h
    simp only [Bool.or_eq_true, Bool.and_eq_true, decide_eq_true_eq, UInt32.le_iff_toNat_le] at h
    have hle : char.val.toNat ≤ 122 := by
      rcases h with ((⟨-, h⟩ | ⟨-, h⟩) | ⟨-, h⟩) <;> exact h.trans (by decide)
    exact Nat.lt_of_le_of_lt hle (by decide)
  · decide

lemma nameDerives_encode {name : String} (h : IsRuleName name) (rest : List Octet) :
    NameDerives name (encode name ++ rest) rest := by
  have halpha : ∀ octet : Octet, octet < 0x80 → octet.toChar.isAlpha → octet.isAlpha := by
    rw [Octet.forall_iff]
    decide +kernel
  have hnameTail : ∀ octet : Octet, octet < 0x80 →
      octet.toChar.isAlphanum ∨ octet.toChar = '-' → octet.isNameTail := by
    rw [Octet.forall_iff]
    decide +kernel
  obtain ⟨first, tail, hname, hfirst, htail⟩ := h
  have hfirstAlphanum : first.isAlphanum := by rw [Char.isAlphanum, hfirst, Bool.true_or]
  obtain ⟨first, hfirstAscii, rfl⟩ :=
    Octet.exists_toChar (toNat_lt_of_isAlphanum (Or.inl hfirstAlphanum))
  obtain ⟨tail, htailAscii, rfl⟩ := Octet.exists_map_toChar fun char hchar =>
    toNat_lt_of_isAlphanum (htail char hchar)
  obtain rfl : String.ofList ((first :: tail).map Octet.toChar) = name := by
    rw [List.map_cons, ← hname, String.ofList_toList]
  rw [encode_ofOctets (List.forall_mem_cons.mpr ⟨hfirstAscii, htailAscii⟩)]
  refine NameDerives.intro rest (halpha first hfirstAscii hfirst) fun octet hoctet => ?_
  exact hnameTail octet (htailAscii octet hoctet) (htail _ (List.mem_map_of_mem hoctet))

lemma boundDerives_numeral (bound : Option UInt32) (rest : List Octet) :
    BoundDerives bound (encode (match bound with
      | some number => Repeat.render.numeral number
      | none => "") ++ rest) rest := by
  cases bound with
  | none => exact BoundDerives.absent rest
  | some number => exact BoundDerives.present (Radix.derives_numeral .decimal number rest)

lemma Repeat.derives_render {bounds : Repeat} (h : bounds.WellFormed) (rest : List Octet) :
    bounds.Derives (encode bounds.render ++ rest) rest := by
  obtain ⟨min, max, starred⟩ := bounds
  cases starred with
  | false =>
    obtain rfl : max = none := h rfl
    exact Repeat.Derives.count (Radix.derives_numeral .decimal min rest)
  | true =>
    have hmax := boundDerives_numeral max rest
    simp only [Repeat.render, if_true, encode_append, List.append_assoc]
    by_cases hmin : min = 0
    · subst hmin
      exact Repeat.Derives.between (BoundDerives.absent _) hmax
    · rw [if_neg hmin]
      exact Repeat.Derives.between
        (BoundDerives.present (Radix.derives_numeral .decimal min _)) hmax

lemma Radix.derivesMembers_render (radix : Radix) (numbers : List UInt32) (rest : List Octet) :
    radix.DerivesMembers numbers
      (numbers.flatMap (fun number => '.'.toUInt8 :: encode (radix.numeral number.toNat)) ++ rest)
      rest := by
  induction numbers with
  | nil => exact Radix.DerivesMembers.nil rest
  | cons number numbers ih =>
    rw [List.flatMap_cons, List.append_assoc]
    exact Radix.DerivesMembers.cons (Radix.derives_numeral radix number _) ih

lemma encode_intercalate_dot (first : String) (others : List String) :
    encode (String.intercalate "." (first :: others)) =
      encode first ++ others.flatMap fun other => '.'.toUInt8 :: encode other := by
  have hdot : encode "." = ['.'.toUInt8] := by decide
  induction others generalizing first with
  | nil => simp [String.intercalate_singleton]
  | cons second others ih =>
    rw [String.intercalate_cons_cons, encode_append, encode_append, ih, hdot]
    simp

lemma Numeric.derives_render {value : Numeric} (h : value.WellFormed) (rest : List Octet) :
    value.Derives (encode value.render ++ rest) rest := by
  obtain ⟨radix, ranged, values⟩ := value
  have hletter : encode ("%" ++ radix.letter.toChar.toString) =
      ['%'.toUInt8, radix.letter] := by
    cases radix <;> decide
  have hlower : radix.letter.toLower = radix.letter := by
    cases radix <;> decide
  rw [Numeric.render, encode_append, hletter]
  cases ranged with
  | true =>
    obtain ⟨lower, upper, rfl⟩ := List.length_eq_two.mp h
    have hhyphen : encode "-" = ['-'.toUInt8] := by decide
    simp only [if_true, List.map_cons, List.map_nil, String.intercalate_cons_cons,
      String.intercalate_singleton, encode_append, hhyphen, List.append_assoc]
    exact Numeric.Derives.range hlower (Radix.derives_numeral radix lower _)
      (Radix.derives_numeral radix upper rest)
  | false =>
    cases values with
    | nil => cases h
    | cons first others =>
      simp only [Bool.false_eq_true, if_false, List.map_cons, encode_intercalate_dot,
        List.append_assoc, List.flatMap_map]
      exact Numeric.Derives.sequence hlower (Radix.derives_numeral radix first _)
        (Radix.derivesMembers_render radix others rest)

/-! ### Rule bodies -/

mutual

lemma Element.derives_render : (element : Element) → element.WellFormed → (rest : List Octet) →
    element.Derives (encode element.render ++ rest) rest
  | .reference name, h, rest => by
    simp only [Element.WellFormed] at h
    rw [Element.render]
    exact Element.Derives.reference (nameDerives_encode h rest)
  | .group body, h, rest => by
    simp only [Element.WellFormed] at h
    have hopen : encode "( " = ['('.toUInt8, ' '.toUInt8] := by decide
    have hclose : encode " )" = [' '.toUInt8, ')'.toUInt8] := by decide
    rw [Element.render, encode_append, encode_append, hopen, hclose]
    simp only [List.append_assoc]
    exact Element.Derives.group (blanks_space _) (Alternation.derives_render body h _)
      (blanks_space _)
  | .option body, h, rest => by
    simp only [Element.WellFormed] at h
    have hopen : encode "[ " = ['['.toUInt8, ' '.toUInt8] := by decide
    have hclose : encode " ]" = [' '.toUInt8, ']'.toUInt8] := by decide
    rw [Element.render, encode_append, encode_append, hopen, hclose]
    simp only [List.append_assoc]
    exact Element.Derives.option (blanks_space _) (Alternation.derives_render body h _)
      (blanks_space _)
  | .literal octets, h, rest => by
    simp only [Element.WellFormed] at h
    have hquote : encode "\"" = ['"'.toUInt8] := by decide
    rw [Element.render, encode_append, encode_append, hquote,
      encode_decode fun octet hoctet => Octet.lt_of_isQuotable (h octet hoctet)]
    simp only [List.append_assoc]
    exact Element.Derives.literal rest h
  | .numeric value, h, rest => by
    simp only [Element.WellFormed] at h
    rw [Element.render]
    exact Element.Derives.numeric (value.derives_render h rest)
  | .prose octets, h, rest => by
    simp only [Element.WellFormed] at h
    have hopen : encode "<" = ['<'.toUInt8] := by decide
    have hclose : encode ">" = ['>'.toUInt8] := by decide
    rw [Element.render, encode_append, encode_append, hopen, hclose,
      encode_decode fun octet hoctet => Octet.lt_of_isProse (h octet hoctet)]
    simp only [List.append_assoc]
    exact Element.Derives.prose rest h

lemma Repetition.derives_render : (repetition : Repetition) → repetition.WellFormed →
    (rest : List Octet) → repetition.Derives (encode repetition.render ++ rest) rest
  | ⟨some bounds, element⟩, h, rest => by
    simp only [Repetition.WellFormed] at h
    rw [Repetition.render, encode_append, List.append_assoc]
    exact Repetition.Derives.repeated (bounds.derives_render h.1 _)
      (Element.derives_render element h.2 rest)
  | ⟨none, element⟩, h, rest => by
    simp only [Repetition.WellFormed] at h
    rw [Repetition.render]
    exact Repetition.Derives.once (Element.derives_render element h rest)

lemma Concatenation.derives_render : (concatenation : Concatenation) →
    concatenation.WellFormed → (rest : List Octet) →
      concatenation.Derives (encode concatenation.render ++ rest) rest
  | [], h, _ => by
    simp only [Concatenation.WellFormed] at h
  | [repetition], h, rest => by
    simp only [Concatenation.WellFormed] at h
    rw [Concatenation.render]
    exact Concatenation.Derives.single (Repetition.derives_render repetition h rest)
  | repetition :: second :: others, h, rest => by
    have hspace : encode " " = [' '.toUInt8] := by decide
    simp only [Concatenation.WellFormed] at h
    rw [Concatenation.render, encode_append, encode_append, hspace]
    simp only [List.append_assoc]
    exact Concatenation.Derives.cons (Repetition.derives_render repetition h.1 _)
      (Relation.TransGen.single (blank_space _))
      (Concatenation.derives_render (second :: others) h.2 rest)
    simp

lemma Alternation.derives_render : (alternation : Alternation) → alternation.WellFormed →
    (rest : List Octet) → alternation.Derives (encode alternation.render ++ rest) rest
  | [], h, _ => by
    simp only [Alternation.WellFormed] at h
  | [branch], h, rest => by
    simp only [Alternation.WellFormed] at h
    rw [Alternation.render]
    exact Alternation.Derives.single (Concatenation.derives_render branch h rest)
  | branch :: second :: others, h, rest => by
    have hslash : encode " / " = [' '.toUInt8, '/'.toUInt8, ' '.toUInt8] := by decide
    simp only [Alternation.WellFormed] at h
    rw [Alternation.render, encode_append, encode_append, hslash]
    simp only [List.append_assoc]
    exact Alternation.Derives.cons (Concatenation.derives_render branch h.1 _)
      (blanks_space _) (blanks_space _) (Alternation.derives_render (second :: others) h.2 rest)
    simp

end

lemma Marker.derives_render (marker : Marker) (rest : List Octet) :
    marker.Derives (' '.toUInt8 :: (encode marker.render ++ ' '.toUInt8 :: rest)) rest := by
  cases marker with
  | basic => exact Marker.Derives.basic (blanks_space _) (blanks_space rest)
  | incremental => exact Marker.Derives.incremental (blanks_space _) (blanks_space rest)

lemma Rule.derives_render {rule : Rule} (h : rule.WellFormed) (rest : List Octet) :
    rule.Derives (encode (rule.render ++ "\n") ++ rest) rest := by
  have hspace : encode " " = [' '.toUInt8] := by decide
  have hfeed : encode "\n" = ['\n'.toUInt8] := by decide
  simp only [Rule.render, encode_append, hspace, hfeed, List.append_assoc, List.cons_append,
    List.nil_append]
  have hbody := Alternation.derives_render rule.body h.body ('\n'.toUInt8 :: rest)
  exact Rule.Derives.intro (nameDerives_encode h.name _) (rule.marker.derives_render _)
    ⟨_, hbody, Relation.ReflTransGen.refl⟩
    (RuleEnd.lineEnd (LineEnd.lineBreak (LineBreak.feed rest)))

lemma encode_renderLines_cons (rule : Rule) (rules : List Rule) :
    encode (Rule.renderLines (rule :: rules)) =
      encode (rule.render ++ "\n") ++ encode (Rule.renderLines rules) := by
  simp only [Rule.renderLines, List.map_cons, String.join_cons, encode_append]

/-- The lines of well-formed rules define these rules. -/
lemma Rule.exists_definitionsDerive (length : Nat) {rules : List Rule}
    (h : ∀ rule ∈ rules, rule.WellFormed) :
    ∃ definitions, definitions.map Definition.rule = rules ∧
      DefinitionsDerive length definitions (encode (Rule.renderLines rules)) := by
  induction rules with
  | nil => exact ⟨[], rfl, DefinitionsDerive.nil⟩
  | cons rule rules ih =>
    obtain ⟨hrule, hrules⟩ := List.forall_mem_cons.mp h
    obtain ⟨definitions, rfl, hdefinitions⟩ := ih hrules
    rw [encode_renderLines_cons]
    refine ⟨_, ?_, DefinitionsDerive.rule (Rule.derives_render hrule _) hdefinitions⟩
    rfl

/-! ### Reading back -/

lemma Alternation.read_eq_ok_iff_body {octets : List Octet} {alternation : Alternation} :
    Alternation.read octets = .ok alternation ↔ Reader.body octets = .ok (alternation, []) := by
  have hwhole : ∀ (value : Alternation) (rest : List Octet),
      (do let body ← Reader.body; Reader.endOfInput; return body : Reader _) octets =
          .ok (value, rest) ↔
        Reader.body octets = .ok (value, []) ∧ rest = [] := by
    intro value rest
    simp only [Reader.bind_eq_ok, Reader.endOfInput_eq_ok, Reader.pure_eq_ok, Prod.mk.injEq]
    constructor
    · intro h
      obtain ⟨_, _, hbody, -, _, ⟨rfl, rfl⟩, rfl, rfl⟩ := h
      exact ⟨hbody, rfl⟩
    · intro h
      obtain ⟨hbody, rfl⟩ := h
      exact ⟨value, [], hbody, (), [], ⟨rfl, rfl⟩, rfl, rfl⟩
  simp only [Alternation.read]
  split
  · rename_i body rest h
    rw [((hwhole body rest).mp h).1]
    simp
  · rename_i mismatch h
    simp only [reduceCtorEq, false_iff]
    intro hbody
    rw [(hwhole alternation []).mpr ⟨hbody, rfl⟩] at h
    cases h

lemma Alternation.read_eq_ok {octets : List Octet} {alternation : Alternation} :
    Alternation.read octets = .ok alternation ↔ alternation.DerivesBody octets [] := by
  rw [Alternation.read_eq_ok_iff_body]
  constructor
  · intro h
    obtain ⟨stop, hbody, hsettles⟩ := Reader.derives_of_body h
    exact ⟨stop, hbody, hsettles.1⟩
  · intro h
    obtain ⟨stop, hbody, hblanks⟩ := h
    refine Reader.body_of_derives hbody ⟨hblanks, fun _ hblank => ?_⟩ (by simp)
    -- Behind a whole body there is no octet left that a blank could begin with.
    obtain ⟨_, _, heq, _⟩ := hblank.head
    cases heq

lemma Grammar.read_eq_ok {document : List Octet} {grammar : Grammar} :
    Grammar.read document = .ok grammar ↔
      ∃ definitions, IsDocument definitions document ∧
        Definition.merge definitions = .ok grammar.rules := by
  simp only [Grammar.read, ← Reader.definitions_eq_ok]
  cases Reader.definitions document with
  | error => simp
  | ok definitions =>
    simp only [Except.ok.injEq, exists_eq_left']
    cases Definition.merge definitions with
    | error => simp
    | ok rules =>
      obtain ⟨others⟩ := grammar
      simp

lemma Rule.WellFormed.extend? {rule later extended : Rule} (hrule : rule.WellFormed)
    (hlater : later.WellFormed) (h : rule.extend? later = some extended) :
    extended.WellFormed := by
  obtain ⟨hname, hbody⟩ := Rule.extend?_eq_some h
  refine ⟨hname ▸ hrule.name, ?_⟩
  rw [hbody, Alternation.wellFormed_iff]
  obtain ⟨hne, hbranches⟩ := Alternation.wellFormed_iff.mp hrule.body
  refine ⟨List.append_ne_nil_of_left_ne_nil hne _, fun branch hbranch => ?_⟩
  obtain hbranch | hbranch := List.mem_append.mp hbranch
  · exact hbranches branch hbranch
  · exact (Alternation.wellFormed_iff.mp hlater.body).2 branch hbranch

/-- Whatever is read is well-formed. -/
theorem Grammar.wellFormed_of_read {document : List Octet} {grammar : Grammar}
    (h : Grammar.read document = .ok grammar) : grammar.WellFormed := by
  obtain ⟨definitions, hdocument, hmerge⟩ := Grammar.read_eq_ok.mp h
  refine ⟨Definition.nodup_merge hmerge, Definition.forall_merge ?_ hmerge ?_⟩
  · intro rule later extended hrule hlater hextend
    exact hrule.extend? hlater hextend
  · exact DefinitionsDerive.wellFormed hdocument

lemma Alternation.ofText_render_iff (alternation : Alternation) :
    Alternation.ofText alternation.render = .ok alternation ↔ alternation.WellFormed := by
  rw [Alternation.ofText, Alternation.read_eq_ok]
  constructor
  · intro h
    obtain ⟨stop, hbody, -⟩ := h
    exact hbody.wellFormed
  · intro h
    have hbody := Alternation.derives_render alternation h []
    rw [List.append_nil] at hbody
    exact ⟨[], hbody, Relation.ReflTransGen.refl⟩

lemma Grammar.ofText_render_iff (grammar : Grammar) :
    Grammar.ofText grammar.render = .ok grammar ↔ grammar.WellFormed := by
  constructor
  · intro h
    exact Grammar.wellFormed_of_read h
  · intro h
    obtain ⟨definitions, hrules, hdocument⟩ :=
      Rule.exists_definitionsDerive (encode grammar.render).length h.rules
    refine Grammar.read_eq_ok.mpr ⟨definitions, hdocument, ?_⟩
    have hnodup : (definitions.map fun definition => definition.rule.name).Nodup := by
      have hdistinct := h.distinct
      rw [← hrules, List.map_map] at hdistinct
      exact hdistinct
    rw [← hrules]
    exact Definition.merge_of_nodup hnodup

/-- Exactly the well-formed bodies and the well-formed grammars are read back as they were
rendered. -/
theorem reads_back_exactly_wellFormed :
    (∀ alternation : Alternation,
      Alternation.ofText alternation.render = .ok alternation ↔ alternation.WellFormed) ∧
    ∀ grammar : Grammar, Grammar.ofText grammar.render = .ok grammar ↔ grammar.WellFormed :=
  ⟨Alternation.ofText_render_iff, Grammar.ofText_render_iff⟩

end AugmentedBnf
