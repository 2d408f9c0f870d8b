import AugmentedBnf.Proofs.Reader.Failure
import AugmentedBnf.Reader.Document

/-!
# What readers leave of their input

However a reader ends, it leaves some end of what it is given: what is behind the value it takes, or
what is left where it reports a mismatch.
-/

namespace AugmentedBnf

lemma Within.suffix {derives : List Octet → List Octet → Prop} {input rest : List Octet}
    (h : Within derives input rest) : rest <:+ input := by
  obtain ⟨word, _, rfl, -⟩ := h
  exact List.suffix_append word rest

lemma IsLocal.suffix {derives : List Octet → List Octet → Prop} (hderives : IsLocal derives)
    {input rest : List Octet} (h : derives input rest) : rest <:+ input := by
  obtain ⟨word, rfl, -⟩ := hderives input rest h
  exact List.suffix_append word rest

namespace Reader

variable {α β : Type}

/-- What is left of the input where a reader has ended. -/
def remainder : Except Mismatch (α × List Octet) → List Octet
  | .ok (_, rest) => rest
  | .error mismatch => mismatch.rest

lemma remainder_map {outcome : Except Mismatch (α × List Octet)} (f : α → β) :
    remainder (outcome.map fun (value, rest) => (f value, rest)) = remainder outcome := by
  cases outcome <;> rfl

def Recedes (reader : Reader α) : Prop :=
  ∀ input, remainder (reader input) <:+ input

lemma Recedes.suffix_of_ok {reader : Reader α} (hreader : reader.Recedes) {input rest : List Octet}
    {value : α} (h : reader input = .ok (value, rest)) : rest <:+ input := by
  have hleft := hreader input
  rwa [h] at hleft

/-! ### Ways to put readers together -/

lemma recedes_pure (value : α) : (pure value : Reader α).Recedes :=
  fun input => List.suffix_refl input

lemma Recedes.bind {reader : Reader α} {next : α → Reader β} (hreader : reader.Recedes)
    (hnext : ∀ value, (next value).Recedes) : (reader >>= next).Recedes := by
  intro input
  have hfirst := hreader input
  simp only [Bind.bind, StateT.bind]
  cases h : reader input with
  | error mismatch =>
    rw [h] at hfirst
    exact hfirst
  | ok result =>
    rw [h] at hfirst
    exact (hnext result.1 result.2).trans hfirst

lemma Recedes.map {reader : Reader α} (hreader : reader.Recedes) (f : α → β) :
    (f <$> reader).Recedes :=
  hreader.bind fun value => recedes_pure (f value)

lemma recedes_fail (expected : Expected) : (fail expected : Reader α).Recedes :=
  fun input => List.suffix_refl input

lemma recedes_octet (expected : Expected) (accepts : Octet → Bool) :
    (octet expected accepts).Recedes := by
  intro input
  cases input with
  | nil => exact List.suffix_rfl
  | cons first rest =>
    simp only [octet]
    split_ifs
    · exact List.suffix_cons _ _
    · exact List.suffix_rfl

lemma recedes_exactly (expected : Expected) (char : Char) : (exactly expected char).Recedes :=
  (recedes_octet expected _).bind fun _ => recedes_pure ()

lemma recedes_endOfInput : endOfInput.Recedes := by
  intro input
  cases input <;> exact List.suffix_rfl

lemma recedes_takeWhile (accepts : Octet → Bool) : (takeWhile accepts).Recedes :=
  fun _ => List.dropWhile_suffix accepts

lemma Recedes.or {first second : Reader α} (hfirst : first.Recedes) (hsecond : second.Recedes) :
    (or first second).Recedes := by
  intro input
  have hleft := hfirst input
  have hright := hsecond input
  simp only [Reader.or]
  cases h : first input with
  | ok => rwa [h] at hleft
  | error mismatch =>
    rw [h] at hleft
    cases h' : second input with
    | ok =>
      rw [h'] at hright
      simp only
      split_ifs
      · exact hleft
      · exact hright
    | error other =>
      rw [h'] at hright
      simp only [Mismatch.furthest]
      split_ifs
      · exact hleft
      · exact hright
      · exact hright
      · exact hleft

lemma Recedes.optional {reader : Reader α} (hreader : reader.Recedes) :
    (optional reader).Recedes := by
  intro input
  have hleft := hreader input
  simp only [Reader.optional]
  cases h : reader input with
  | ok => rwa [h] at hleft
  | error mismatch =>
    rw [h] at hleft
    simp only
    split_ifs
    · exact hleft
    · exact List.suffix_rfl

lemma Recedes.commit {reader : Reader α} (hreader : reader.Recedes) : (commit reader).Recedes := by
  intro input
  have hleft := hreader input
  simp only [Reader.commit]
  cases h : reader input <;> rwa [h] at hleft

lemma Recedes.label {reader : Reader α} (hreader : reader.Recedes) (expected : Expected) :
    (label expected reader).Recedes := by
  intro input
  have hleft := hreader input
  simp only [Reader.label]
  cases h : reader input with
  | ok => rwa [h] at hleft
  | error mismatch =>
    rw [h] at hleft
    simp only
    split_ifs
    · exact List.suffix_rfl
    · exact hleft

lemma Recedes.manyUpTo {reader : Reader α} (hreader : reader.Recedes) (turns : Nat) :
    (manyUpTo reader turns).Recedes := by
  induction turns with
  | zero => exact fun input => List.suffix_refl input
  | succ turns ih =>
    intro input
    have hleft := hreader input
    simp only [Reader.manyUpTo]
    cases h : reader input with
    | error mismatch =>
      rw [h] at hleft
      simp only
      split_ifs
      · exact hleft
      · exact List.suffix_rfl
    | ok result =>
      rw [h] at hleft
      have hothers := (ih result.2).trans hleft
      simp only
      split_ifs
      · exact List.suffix_rfl
      · cases h' : Reader.manyUpTo reader turns result.2 <;> rwa [h'] at hothers

lemma Recedes.many {reader : Reader α} (hreader : reader.Recedes) : (many reader).Recedes :=
  fun input => hreader.manyUpTo (input.length + 1) input

lemma Recedes.many1 {reader : Reader α} (hreader : reader.Recedes) : (many1 reader).Recedes := by
  refine hreader.bind fun first => ?_
  exact hreader.many.bind fun others => recedes_pure _

/-! ### The readers of a document -/

lemma recedes_whiteSpace : whiteSpace.Recedes :=
  (recedes_octet _ _).bind fun _ => recedes_pure ()

lemma recedes_lineBreak : lineBreak.Recedes := by
  refine Recedes.or ?_ (recedes_exactly _ _)
  exact (recedes_exactly _ _).bind fun _ => recedes_exactly _ _

lemma recedes_comment : comment.Recedes := by
  refine (recedes_exactly _ _).bind fun _ => ?_
  exact (recedes_takeWhile _).bind fun _ => recedes_lineBreak.or recedes_endOfInput

lemma recedes_commentOrLineBreak : commentOrLineBreak.Recedes :=
  (recedes_comment.or recedes_lineBreak).label _

lemma recedes_blank : blank.Recedes :=
  recedes_whiteSpace.or (recedes_commentOrLineBreak.bind fun _ => recedes_whiteSpace)

lemma recedes_blanks : blanks.Recedes :=
  recedes_blank.many.bind fun _ => recedes_pure ()

lemma recedes_number (radix : Radix) : (number radix).Recedes := by
  intro input
  simp only [number]
  split
  · exact List.suffix_rfl
  · split_ifs
    · exact List.dropWhile_suffix _
    · exact List.suffix_rfl

lemma recedes_ruleName : ruleName.Recedes := by
  refine (recedes_octet _ _).bind fun first => ?_
  exact (recedes_takeWhile _).bind fun rest => recedes_pure _

lemma recedes_bounds : bounds.Recedes := by
  intro input
  cases h : bounds input with
  | ok => exact (isLocal_bounds _).suffix (derives_of_bounds h)
  | error =>
    obtain ⟨_, hwithin⟩ := bounds_eq_error h
    exact hwithin.suffix

lemma recedes_numeric : numeric.Recedes := by
  intro input
  cases h : numeric input with
  | ok => exact (isLocal_numeric _).suffix (derives_of_numeric h)
  | error =>
    obtain ⟨_, hwithin⟩ := numeric_eq_error h
    exact hwithin.suffix

lemma recedes_delimited (opening closing : Char) (start stop : Expected) (accepts : Octet → Bool) :
    (delimited opening closing start stop accepts).Recedes := by
  refine (recedes_exactly _ _).bind fun _ => Recedes.commit ?_
  refine (recedes_takeWhile _).bind fun octets => ?_
  exact (recedes_exactly _ _).bind fun _ => recedes_pure octets

section

variable {element : Reader Element}

lemma Recedes.repetitionOf (helement : element.Recedes) : (repetitionOf element).Recedes := by
  refine recedes_bounds.optional.bind fun bounds => ?_
  exact helement.bind fun element => recedes_pure _

lemma Recedes.nextRepetition (helement : element.Recedes) : (nextRepetition element).Recedes :=
  recedes_blank.many1.bind fun _ => helement.repetitionOf

lemma Recedes.concatenationOf (helement : element.Recedes) : (concatenationOf element).Recedes := by
  refine helement.repetitionOf.bind fun first => ?_
  exact helement.nextRepetition.many.bind fun others => recedes_pure _

lemma Recedes.nextBranch (helement : element.Recedes) : (nextBranch element).Recedes := by
  refine recedes_blanks.bind fun _ => ?_
  refine (recedes_exactly _ _).bind fun _ => Recedes.commit ?_
  exact recedes_blanks.bind fun _ => helement.concatenationOf

lemma Recedes.alternationOf (helement : element.Recedes) : (alternationOf element).Recedes := by
  refine helement.concatenationOf.bind fun first => ?_
  exact helement.nextBranch.many.bind fun others => recedes_pure _

lemma Recedes.bracketed (helement : element.Recedes) (opening closing : Char)
    (expected : Expected) : (bracketed opening closing expected element).Recedes := by
  have hclosing : ∀ body : Alternation,
      (do blanks; exactly expected closing; return body : Reader Alternation).Recedes := by
    intro body
    refine recedes_blanks.bind fun _ => ?_
    exact (recedes_exactly _ _).bind fun _ => recedes_pure body
  refine (recedes_exactly _ _).bind fun _ => Recedes.commit ?_
  refine recedes_blanks.bind fun _ => ?_
  exact helement.alternationOf.bind hclosing

lemma Recedes.elementOf (helement : element.Recedes) : (elementOf element).Recedes := by
  intro input
  cases input with
  | nil => exact List.suffix_rfl
  | cons first rest =>
    simp only [Reader.elementOf]
    split_ifs
    · exact (recedes_ruleName.map _) _
    · exact ((helement.bracketed _ _ _).map _) _
    · exact ((helement.bracketed _ _ _).map _) _
    · exact ((recedes_delimited _ _ _ _ _).map _) _
    · exact (recedes_numeric.map _) _
    · exact ((recedes_delimited _ _ _ _ _).map _) _
    · exact List.suffix_rfl

end

lemma recedes_elementUpTo (depth : Nat) : (elementUpTo depth).Recedes := by
  induction depth with
  | zero => exact recedes_fail _
  | succ depth ih => exact ih.elementOf

lemma recedes_body : body.Recedes := by
  have halternation : alternation.Recedes := fun input =>
    (recedes_elementUpTo input.length).alternationOf input
  refine halternation.bind fun body => ?_
  exact recedes_blanks.bind fun _ => recedes_pure body

lemma recedes_marker : marker.Recedes := by
  refine recedes_blanks.bind fun _ => ?_
  refine (recedes_exactly _ _).bind fun _ => ?_
  refine (recedes_exactly _ _).optional.bind fun slash => ?_
  exact recedes_blanks.bind fun _ => recedes_pure _

lemma recedes_ruleEnd :
    (label .commentOrLineBreak (or commentOrLineBreak endOfInput)).Recedes :=
  (recedes_commentOrLineBreak.or recedes_endOfInput).label _

lemma recedes_definition : definition.Recedes := by
  refine recedes_ruleName.bind fun name => Recedes.commit ?_
  refine recedes_marker.bind fun marker => ?_
  refine recedes_body.bind fun body => ?_
  exact recedes_ruleEnd.bind fun _ => recedes_pure _

lemma recedes_emptyLine : emptyLine.Recedes :=
  (recedes_blanks.bind fun _ => recedes_commentOrLineBreak).label _

end Reader

end AugmentedBnf
