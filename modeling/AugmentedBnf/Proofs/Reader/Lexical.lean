import AugmentedBnf.Proofs.Reader.Basic
import AugmentedBnf.Proofs.Reader.Derivation
import AugmentedBnf.Reader.Lexical

/-!
# What the lexical readers read

Line breaks, line ends and blanks are read exactly as they are derived, so an input has at most one
of each. Runs of blanks, names and numerals are read to their ends: here a derivation may stop
earlier, and the reader agrees with the one that cannot go on.
-/

namespace AugmentedBnf

namespace Reader

lemma lineBreak_eq_ok {input rest : List Octet} {value : Unit} :
    lineBreak input = .ok (value, rest) ↔ LineBreak input rest := by
  simp only [lineBreak, or_eq_ok, bind_eq_ok, bind_declines, exactly_eq_ok, exactly_declines]
  constructor
  · intro h
    obtain ⟨_, _, rfl, rfl⟩ | ⟨-, rfl⟩ := h
    · exact LineBreak.returnAndFeed rest
    · exact LineBreak.feed rest
  · intro h
    cases h with
    | returnAndFeed => exact Or.inl ⟨(), _, rfl, rfl⟩
    | feed => exact Or.inr ⟨Or.inl (bars_cons (by decide)), rfl⟩

lemma staysOpen_lineBreak : lineBreak.StaysOpen :=
  ((staysOpen_exactly _ _).bind fun _ => staysOpen_exactly _ _).or (staysOpen_exactly _ _)

lemma bars_comment_of_lineBreak {input rest : List Octet} (h : LineBreak input rest) :
    Bars Octet.isComment input := by
  cases h with
  | returnAndFeed => exact bars_cons (by decide)
  | feed => exact bars_cons (by decide)

lemma comment_eq_ok {input rest : List Octet} {value : Unit} :
    comment input = .ok (value, rest) ↔
      ∃ text middle : List Octet, input = ';'.toUInt8 :: (text ++ middle) ∧
        (∀ octet ∈ text, Octet.isComment octet) ∧
        (LineBreak middle rest ∨ middle = [] ∧ rest = []) := by
  simp only [comment, bind_eq_ok, exactly_eq_ok, or_eq_ok, lineBreak_eq_ok, endOfInput_eq_ok]
  constructor
  · intro h
    obtain ⟨-, _, rfl, text, middle, htext, hend⟩ := h
    obtain ⟨rfl, htext, -⟩ := takeWhile_eq_ok.mp htext
    exact ⟨text, middle, rfl, htext, hend.imp_right And.right⟩
  · intro h
    obtain ⟨text, middle, rfl, htext, hend⟩ := h
    refine ⟨(), _, rfl, text, middle, takeWhile_eq_ok.mpr ⟨rfl, htext, ?_⟩, ?_⟩
    · obtain hbreak | ⟨rfl, -⟩ := hend
      · exact bars_comment_of_lineBreak hbreak
      · exact bars_nil
    · refine hend.imp_right fun hend => ⟨?_, hend⟩
      rw [staysOpen_lineBreak.declines_iff, hend.1]
      simp only [lineBreak_eq_ok, ne_eq]
      intro _ _ h
      cases h

lemma staysOpen_comment : comment.StaysOpen := by
  refine (staysOpen_exactly _ _).bind fun _ => ?_
  exact (staysOpen_takeWhile _).bind fun _ => staysOpen_lineBreak.or staysOpen_endOfInput

lemma commentOrLineBreak_eq_ok {input rest : List Octet} {value : Unit} :
    commentOrLineBreak input = .ok (value, rest) ↔ LineEnd input rest := by
  simp only [commentOrLineBreak, label_eq_ok, or_eq_ok, comment_eq_ok, lineBreak_eq_ok]
  constructor
  · intro h
    obtain ⟨text, middle, rfl, htext, hbreak | ⟨rfl, rfl⟩⟩ | ⟨-, hbreak⟩ := h
    · exact LineEnd.comment htext hbreak
    · rw [List.append_nil]
      exact LineEnd.lastComment htext
    · exact LineEnd.lineBreak hbreak
  · intro h
    cases h with
    | comment htext hbreak => exact Or.inl ⟨_, _, rfl, htext, Or.inl hbreak⟩
    | lastComment htext => exact Or.inl ⟨_, [], by rw [List.append_nil], htext, Or.inr ⟨rfl, rfl⟩⟩
    | lineBreak hbreak =>
      refine Or.inr ⟨?_, hbreak⟩
      simp only [staysOpen_comment.declines_iff, comment_eq_ok, ne_eq, not_exists, not_and]
      intro _ _ text middle hinput
      cases hbreak <;> cases hinput

lemma staysOpen_commentOrLineBreak : commentOrLineBreak.StaysOpen :=
  (staysOpen_comment.or staysOpen_lineBreak).label _

/-! ### Blanks -/

lemma whiteSpace_eq_ok {input rest : List Octet} {value : Unit} :
    whiteSpace input = .ok (value, rest) ↔ ∃ octet, input = octet :: rest ∧ octet.isWhiteSpace := by
  simp only [whiteSpace, bind_eq_ok, octet_eq_ok, pure_eq_ok, Prod.mk.injEq]
  constructor
  · intro h
    obtain ⟨octet, _, ⟨rfl, hspace⟩, -, rfl⟩ := h
    exact ⟨octet, rfl, hspace⟩
  · intro h
    obtain ⟨octet, rfl, hspace⟩ := h
    exact ⟨octet, rest, ⟨rfl, hspace⟩, trivial, rfl⟩

lemma staysOpen_whiteSpace : whiteSpace.StaysOpen :=
  (staysOpen_octet _ _).bind fun _ => staysOpen_pure ()

lemma blank_eq_ok {input rest : List Octet} {value : Unit} :
    blank input = .ok (value, rest) ↔ Blank input rest := by
  simp only [blank, or_eq_ok, bind_eq_ok, whiteSpace_eq_ok, commentOrLineBreak_eq_ok]
  constructor
  · intro h
    obtain ⟨octet, rfl, hspace⟩ | ⟨-, -, _, hend, octet, rfl, hspace⟩ := h
    · exact Blank.whiteSpace rest hspace
    · exact Blank.indentedLine hend hspace
  · intro h
    cases h with
    | whiteSpace _ hspace => exact Or.inl ⟨_, rfl, hspace⟩
    | indentedLine hend hspace =>
      refine Or.inr ⟨?_, (), _, hend, _, rfl, hspace⟩
      simp only [staysOpen_whiteSpace.declines_iff, whiteSpace_eq_ok, ne_eq, not_exists, not_and]
      obtain ⟨first, others, rfl, hfirst⟩ := LineEnd.head hend
      intro _ _ octet heq
      cases heq
      rcases hfirst with rfl | rfl | rfl <;> decide

lemma staysOpen_blank : blank.StaysOpen :=
  staysOpen_whiteSpace.or (staysOpen_commentOrLineBreak.bind fun _ => staysOpen_whiteSpace)

lemma blank_declines {input : List Octet} : blank.Declines input ↔ ∀ rest, ¬ Blank input rest := by
  simp only [staysOpen_blank.declines_iff, blank_eq_ok, ne_eq, forall_const]

end Reader

lemma LineEnd.unique {input rest rest' : List Octet} (h : LineEnd input rest)
    (h' : LineEnd input rest') : rest = rest' := by
  have hread : Reader.commentOrLineBreak input = .ok ((), rest) :=
    Reader.commentOrLineBreak_eq_ok.mpr h
  rw [Reader.commentOrLineBreak_eq_ok.mpr h'] at hread
  cases hread
  rfl

lemma Blank.unique {input rest rest' : List Octet} (h : Blank input rest)
    (h' : Blank input rest') : rest = rest' := by
  have hread : Reader.blank input = .ok ((), rest) := Reader.blank_eq_ok.mpr h
  rw [Reader.blank_eq_ok.mpr h'] at hread
  cases hread
  rfl

/-- Blanks up to where there are no more. -/
def Settles (input rest : List Octet) : Prop := Blanks input rest ∧ ∀ behind, ¬ Blank rest behind

lemma Settles.head {input middle rest : List Octet} (hblanks : Blanks input middle)
    (h : Settles middle rest) : Settles input rest :=
  ⟨hblanks.trans h.1, h.2⟩

namespace Reader

lemma shrinks_blank : blank.Shrinks :=
  fun _ _ _ h => (blank_eq_ok.mp h).length_lt

lemma exists_many_blank {input rest : List Octet} :
    (∃ units, many blank input = .ok (units, rest)) ↔ Settles input rest := by
  constructor
  · intro h
    obtain ⟨units, h⟩ := h
    refine many_induction (motive := fun input _ => Settles input rest) shrinks_blank ?_ ?_ h
    · intro hdeclines
      exact ⟨Relation.ReflTransGen.refl, blank_declines.mp hdeclines⟩
    · intro _ middle _ _ hblank hsettles
      exact ⟨Relation.ReflTransGen.head (blank_eq_ok.mp hblank) hsettles.1, hsettles.2⟩
  · intro h
    obtain ⟨hblanks, hlast⟩ := h
    induction hblanks using Relation.ReflTransGen.head_induction_on with
    | refl =>
      exact ⟨[], (many_eq_ok shrinks_blank).mpr (Or.inr ⟨blank_declines.mpr hlast, rfl, rfl⟩)⟩
    | head hblank _ ih =>
      obtain ⟨units, hmany⟩ := ih
      exact ⟨() :: units, (many_eq_ok shrinks_blank).mpr
        (Or.inl ⟨(), _, units, blank_eq_ok.mpr hblank, hmany, rfl⟩)⟩

lemma blanks_eq_ok {input rest : List Octet} {value : Unit} :
    blanks input = .ok (value, rest) ↔ Settles input rest := by
  simp only [blanks, bind_eq_ok, pure_eq_ok, Prod.mk.injEq, ← exists_many_blank]
  constructor
  · intro h
    obtain ⟨turns, _, hmany, -, rfl⟩ := h
    exact ⟨turns, hmany⟩
  · intro h
    obtain ⟨turns, hmany⟩ := h
    exact ⟨turns, rest, hmany, trivial, rfl⟩

/-- Blanks, and at least one, up to where there are no more. -/
lemma exists_many1_blank {input rest : List Octet} :
    (∃ units, many1 blank input = .ok (units, rest)) ↔
      ∃ middle, Blank input middle ∧ Settles middle rest := by
  simp only [many1_eq_ok, blank_eq_ok, ← exists_many_blank]
  constructor
  · intro h
    obtain ⟨_, _, middle, others, hblank, hmany, -⟩ := h
    exact ⟨middle, hblank, others, hmany⟩
  · intro h
    obtain ⟨middle, hblank, others, hmany⟩ := h
    exact ⟨_, (), middle, others, hblank, hmany, rfl⟩

lemma many1_blank_declines {input : List Octet} (h : ∀ rest, ¬ Blank input rest) :
    (many1 blank).Declines input :=
  bind_declines.mpr (Or.inl (blank_declines.mpr h))

/-! ### Names and numerals -/

lemma ruleName_eq_ok {input rest : List Octet} {name : String} :
    ruleName input = .ok (name, rest) ↔
      NameDerives name input rest ∧ Bars Octet.isNameTail rest := by
  simp only [ruleName, bind_eq_ok, octet_eq_ok, takeWhile_eq_ok, pure_eq_ok, Prod.mk.injEq]
  constructor
  · intro h
    obtain ⟨first, _, ⟨rfl, hfirst⟩, tail, _, ⟨rfl, htail, hbars⟩, rfl, rfl⟩ := h
    exact ⟨NameDerives.intro _ hfirst htail, hbars⟩
  · intro h
    obtain ⟨⟨_, hfirst, htail⟩, hbars⟩ := h
    exact ⟨_, _, ⟨rfl, hfirst⟩, _, _, ⟨rfl, htail, hbars⟩, rfl, rfl⟩

lemma number_eq_ok {radix : Radix} {input rest : List Octet} {value : UInt32} :
    number radix input = .ok (value, rest) ↔
      radix.Derives value input rest ∧ Bars radix.isDigit rest := by
  simp only [number]
  constructor
  · intro h
    obtain ⟨hinput, hdigits, hbars⟩ :=
      takeWhile_eq_ok.mp (rfl : takeWhile radix.isDigit input = _)
    split at h
    · cases h
    · rename_i digits hne
      split at h
      · rename_i hvalue
        cases h
        refine ⟨?_, hbars⟩
        conv => arg 3; rw [hinput]
        exact Radix.Derives.intro _ hne hdigits hvalue
      · cases h
  · intro h
    obtain ⟨⟨_, hne, hdigits, hvalue⟩, hbars⟩ := h
    have hrun := takeWhile_eq_ok.mpr ⟨rfl, hdigits, hbars⟩
    simp only [takeWhile, Except.ok.injEq, Prod.mk.injEq] at hrun
    rw [hrun.1, hrun.2]
    simp [hvalue]

lemma number_declines {radix : Radix} {input : List Octet} :
    (number radix).Declines input ↔ Bars radix.isDigit input := by
  cases input with
  | nil => simp [number, Declines, Bars]
  | cons first rest =>
    by_cases hdigit : radix.isDigit first = true
    · by_cases hvalue : radix.value (first :: rest.takeWhile radix.isDigit) < UInt32.size
      · simp [number, Declines, Bars, hdigit, hvalue]
      · simp [number, Declines, Bars, hdigit, hvalue]
    · simp [number, Declines, Bars, hdigit]

end Reader

end AugmentedBnf
