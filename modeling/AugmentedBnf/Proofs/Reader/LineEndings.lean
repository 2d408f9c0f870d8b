import AugmentedBnf.Proofs.Grammar.Merge
import AugmentedBnf.Proofs.Reader.DocumentInStep

/-!
# Either end of a line

A line ends with a line feed, and a carriage return may stand before it. Where documents differ in
these carriage returns only, the same is read from them, or the same is reported at the same position.

* `InsertsReturns`: carriage returns are put before some line feeds.
* `InsertsReturns.behind_eq`: they move no position.
* `Grammar.read_insertsReturns`: they do not change what is read or reported.
-/

namespace AugmentedBnf

open Reader

/-- Before some line feeds a carriage return is put. -/
inductive InsertsReturns : List Octet → List Octet → Prop where
  | nil : InsertsReturns [] []
  | cons {octets octets'} (octet : Octet) (h : InsertsReturns octets octets') :
      InsertsReturns (octet :: octets) (octet :: octets')
  | insert {octets octets'} (h : InsertsReturns octets octets') :
      InsertsReturns ('\n'.toUInt8 :: octets) ('\r'.toUInt8 :: '\n'.toUInt8 :: octets')

namespace InsertsReturns

variable {octets octets' others others' : List Octet}

lemma append (h : InsertsReturns octets octets') (hothers : InsertsReturns others others') :
    InsertsReturns (octets ++ others) (octets' ++ others') := by
  induction h with
  | nil => exact hothers
  | cons octet _ ih => exact .cons octet ih
  | insert _ ih => exact .insert ih

/-- Without carriage returns it is what it was before. -/
lemma filter_eq (hreturn : '\r'.toUInt8 ∉ octets) (h : InsertsReturns octets octets') :
    octets'.filter (· != '\r'.toUInt8) = octets := by
  induction h with
  | nil => rfl
  | cons octet _ ih =>
    obtain ⟨hne, hothers⟩ := List.ne_and_not_mem_of_not_mem_cons hreturn
    simp [Ne.symm hne, ih hothers]
  | insert _ ih =>
    obtain ⟨hne, hothers⟩ := List.ne_and_not_mem_of_not_mem_cons hreturn
    simp [Ne.symm hne, ih hothers]

/-- A carriage return that is put somewhere is not the last octet. -/
lemma ne_append_return (hreturn : '\r'.toUInt8 ∉ octets) (h : InsertsReturns octets octets')
    (front : List Octet) : octets' ≠ front ++ ['\r'.toUInt8] := by
  induction h generalizing front with
  | nil => simp
  | cons octet _ ih =>
    obtain ⟨hne, hothers⟩ := List.ne_and_not_mem_of_not_mem_cons hreturn
    cases front with
    | nil => simp [Ne.symm hne]
    | cons => simp [ih hothers]
  | insert _ ih =>
    obtain ⟨hne, hothers⟩ := List.ne_and_not_mem_of_not_mem_cons hreturn
    obtain _ | ⟨_, _ | ⟨_, front⟩⟩ := front
    · simp
    · simp [Ne.symm hne]
    · simp [ih hothers]

/-- Positions do not count what is put before a line feed. -/
lemma behind_eq (h : InsertsReturns octets octets') :
    Position.behind octets = Position.behind octets' := by
  rw [Position.behind_eq_foldl, Position.behind_eq_foldl]
  generalize (⟨1, 1⟩ : Position) = position
  induction h generalizing position with
  | nil => rfl
  | cons octet _ ih => exact ih _
  | insert _ ih => exact ih _

/-- Of two beginnings of a document, the shorter one stays the shorter one. -/
lemma length_lt_iff {document' : List Octet} (hoctets : '\r'.toUInt8 ∉ octets)
    (hothers : '\r'.toUInt8 ∉ others) (h : InsertsReturns octets octets')
    (h' : InsertsReturns others others') (hfront : octets' <+: document')
    (hfront' : others' <+: document') :
    octets.length < others.length ↔ octets'.length < others'.length := by
  rw [← h.filter_eq hoctets, ← h'.filter_eq hothers]
  constructor
  · intro hlt
    by_contra hle
    -- Of two beginnings of one document, the one that is not longer begins the other.
    have hfront := List.prefix_of_prefix_length_le hfront' hfront (Nat.le_of_not_lt hle)
    exact absurd (hfront.filter _).length_le (Nat.not_le_of_lt hlt)
  · intro hlt
    obtain ⟨more, rfl⟩ := List.prefix_of_prefix_length_le hfront hfront' hlt.le
    rw [List.filter_append, List.length_append]
    by_contra hle
    -- Only returns are left to make it longer, but no beginning ends in one.
    have hnone : more.filter (· != '\r'.toUInt8) = [] := List.length_eq_zero_iff.mp (by omega)
    obtain rfl | ⟨front, last, rfl⟩ := more.eq_nil_or_concat
    · simp at hlt
    · have hlast := List.filter_eq_nil_iff.mp hnone last (by simp)
      obtain rfl : last = '\r'.toUInt8 := by simpa using hlast
      exact h'.ne_append_return hothers (octets' ++ front) (by simp)

end InsertsReturns

/-! ### Two documents -/

section

variable (document document' : List Octet)

/-- What is left of two documents that differ in their carriage returns, behind beginnings that do. -/
def LeftAlike (input input' : List Octet) : Prop :=
  ∃ before before', document = before ++ input ∧ document' = before' ++ input' ∧
    InsertsReturns before before' ∧ InsertsReturns input input'

end

namespace LeftAlike

variable {document document' input input' : List Octet}

lemma advance (h : LeftAlike document document' input input') {word word' rest rest' : List Octet}
    (hinput : input = word ++ rest) (hinput' : input' = word' ++ rest')
    (hword : InsertsReturns word word') (hrest : InsertsReturns rest rest') :
    LeftAlike document document' rest rest' := by
  subst hinput hinput'
  obtain ⟨before, before', heq, heq', hbefore, -⟩ := h
  refine ⟨before ++ word, before' ++ word', ?_, ?_, hbefore.append hword, hrest⟩
  · rw [heq, List.append_assoc]
  · rw [heq', List.append_assoc]

/-- What is left begins at the same position. -/
lemma locate_eq (h : LeftAlike document document' input input') :
    Position.locate document (document.length - input.length) =
      Position.locate document' (document'.length - input'.length) := by
  obtain ⟨before, before', rfl, rfl, hbefore, -⟩ := h
  rw [Position.locate_behind, Position.locate_behind, hbefore.behind_eq]

lemma lineBreak (hreturn : '\r'.toUInt8 ∉ document) (h : LeftAlike document document' input input') :
    InStep (LeftAlike document document') (fun _ => False) (Reader.lineBreak input)
      (Reader.lineBreak input') := by
  obtain ⟨before, _, heq, -, -, hinput⟩ := id h
  cases hinput with
  | nil => exact .error _ false h
  | insert hrest =>
    rw [lineBreak_eq_ok.mpr (.feed _), lineBreak_eq_ok.mpr (.returnAndFeed _)]
    exact .ok () (h.advance rfl rfl (.insert .nil) hrest)
  | @cons rest _ octet hrest =>
    have hoctet : octet ≠ '\r'.toUInt8 := by
      rintro rfl
      exact hreturn (heq ▸ List.mem_append_right _ List.mem_cons_self)
    by_cases hfeed : octet = '\n'.toUInt8
    · subst hfeed
      rw [lineBreak_eq_ok.mpr (.feed _), lineBreak_eq_ok.mpr (.feed _)]
      exact .ok () (h.advance rfl rfl (.cons _ .nil) hrest)
    · have hbars : octet.isBreak = false := by simp [Octet.isBreak, hoctet, hfeed]
      rw [lineBreak_of_bars (bars_cons hbars), lineBreak_of_bars (bars_cons hbars)]
      exact .error _ false h

/-- Where more is left of the one document, more is left of the other. -/
lemma length_lt_iff {other other' : List Octet} (hreturn : '\r'.toUInt8 ∉ document)
    (h : LeftAlike document document' input input')
    (h' : LeftAlike document document' other other') :
    other.length < input.length ↔ other'.length < input'.length := by
  obtain ⟨before, before', heq, heq', hbefore, -⟩ := h
  obtain ⟨ahead, ahead', hother, hother', hahead, -⟩ := h'
  have hlength := congrArg List.length (heq.symm.trans hother)
  have hlength' := congrArg List.length (heq'.symm.trans hother')
  have hiff := hbefore.length_lt_iff
    (fun hmem => hreturn (heq ▸ List.mem_append_left _ hmem))
    (fun hmem => hreturn (hother ▸ List.mem_append_left _ hmem)) hahead
    ⟨input', heq'.symm⟩ ⟨other', hother'.symm⟩
  simp only [List.length_append] at hlength hlength'
  omega

end LeftAlike

/-- Readers do not tell the two ends of a line apart. -/
lemma simulation_leftAlike {document document' : List Octet}
    (hreturn : '\r'.toUInt8 ∉ document) :
    Simulation (LeftAlike document document') fun _ => False where
  nil := by
    rintro input' ⟨_, _, -, -, -, h⟩
    cases h
    rfl
  cons := by
    intro first rest input' h hfirst
    obtain ⟨_, _, -, -, -, hinput⟩ := id h
    cases hinput with
    | cons _ hrest =>
      exact ⟨_, rfl, .inl (h.advance (List.singleton_append).symm (List.singleton_append).symm
        (.cons first .nil) hrest)⟩
    | insert => cases hfirst
  cons_break := by
    rintro first rest input' ⟨_, _, -, -, -, h⟩ hfirst
    cases h with
    | cons => exact ⟨first, _, rfl, hfirst⟩
    | insert => exact ⟨_, _, rfl, by decide⟩
  lineBreak h := h.lineBreak hreturn
  length_lt_iff h h' := h.length_lt_iff hreturn h'
  not_past _ := id
  past_of_le h _ := h

/-- Whether the lines of a document end with a line feed or with a carriage return and a line feed
makes no difference: the same grammar is read, the same rule is found to be defined once more, or the
same is expected at the same position. -/
theorem Grammar.read_insertsReturns {document document' : List Octet}
    (hreturn : '\r'.toUInt8 ∉ document) (h : InsertsReturns document document') :
    (∃ grammar, Grammar.read document = .ok grammar ∧ Grammar.read document' = .ok grammar) ∨
    (∃ rule position, Grammar.read document = .error (.collision rule position) ∧
      Grammar.read document' = .error (.collision rule position)) ∨
    ∃ expected actual actual' position,
      Grammar.read document = .error (.mismatch expected actual position) ∧
      Grammar.read document' = .error (.mismatch expected actual' position) := by
  have hread : ReadAlike (LeftAlike document document') (fun _ => False) document.length
      document'.length document (definitions document) (definitions document') :=
    (simulation_leftAlike hreturn).definitionsUpTo ⟨[], [], rfl, rfl, .nil, h⟩ (le_refl _) (le_refl _)
  simp only [Grammar.read]
  generalize definitions document = outcome at hread
  generalize definitions document' = outcome' at hread
  cases hread with
  | ok hdefinitions =>
    obtain ⟨rules, hmerge, hmerge'⟩ | ⟨definition, definition', hcollide, hmerge, hmerge'⟩ :=
      Definition.merge_of_forall₂ (fun h => h.rule) hdefinitions
    · simp only [hmerge, hmerge']
      exact .inl ⟨⟨rules⟩, rfl, rfl⟩
    · obtain ⟨hrule, rest, rest', hrest, hoffset, hoffset'⟩ := hcollide
      simp only [hmerge, hmerge']
      refine .inr (.inl ⟨definition.rule.name, Position.locate document definition.offset, rfl, ?_⟩)
      rw [hrule, hoffset, hoffset', hrest.locate_eq]
  | @error rest rest' expected committed hrest =>
    refine .inr (.inr ⟨expected, rest.head?, rest'.head?, _, rfl, ?_⟩)
    simp only [ReadError.ofMismatch, hrest.locate_eq]
  | past hpast => exact hpast.elim
  | tentative _ hpast => exact hpast.elim

/-- The group that is not closed where its line ends is reported there, however the line before it
ends. -/
theorem Grammar.read_insertsReturns_unclosedGroup :
    '\r'.toUInt8 ∉ Utf8.encode "b=c\na=(b\n" ∧
      InsertsReturns (Utf8.encode "b=c\na=(b\n") (Utf8.encode "b=c\r\na=(b\n") ∧
      Grammar.read (Utf8.encode "b=c\na=(b\n") =
        .error (.mismatch .closingParenthesis (some 0x0A) ⟨2, 5⟩) ∧
      ∃ actual, Grammar.read (Utf8.encode "b=c\r\na=(b\n") =
        .error (.mismatch .closingParenthesis actual ⟨2, 5⟩) := by
  have hread : Grammar.read (Utf8.encode "b=c\na=(b\n") =
      .error (.mismatch .closingParenthesis (some 0x0A) ⟨2, 5⟩) := by decide +kernel
  have hreturn : '\r'.toUInt8 ∉ Utf8.encode "b=c\na=(b\n" := by decide +kernel
  have hinserts : InsertsReturns (Utf8.encode "b=c\na=(b\n") (Utf8.encode "b=c\r\na=(b\n") :=
    .cons _ (.cons _ (.cons _ (.insert (.cons _ (.cons _ (.cons _ (.cons _ (.cons _ .nil))))))))
  refine ⟨hreturn, hinserts, hread, ?_⟩
  obtain ⟨grammar, h, -⟩ | ⟨rule, position, h, -⟩ | ⟨expected, actual, actual', position, h, h'⟩ :=
    Grammar.read_insertsReturns hreturn hinserts
  · rw [hread] at h
    cases h
  · rw [hread] at h
    cases h
  · rw [hread] at h
    cases h
    exact ⟨actual', h'⟩

end AugmentedBnf
