import AugmentedBnf.Proofs.Reader.DocumentInStep

/-!
# The first unexpected octet

Where a mismatch is reported, no other octets behind the reported one would make the document readable,
unless that octet begins something that has been given back.

* `simulation_sharesTo`: documents that are the same up to an octet are read in step up to there.
* `Grammar.mismatch_persists`: the same mismatch is reported whatever stands behind it.
-/

namespace AugmentedBnf

open Reader

section

variable (actual : Octet) (tail tail' : List Octet)

/-- Inputs that are the same up to an octet and this octet. -/
def SharesTo (input input' : List Octet) : Prop :=
  ∃ before, input = before ++ actual :: tail ∧ input' = before ++ actual :: tail'

end

variable {actual : Octet} {tail tail' input input' : List Octet}

lemma SharesTo.cons {first : Octet} {rest : List Octet}
    (h : SharesTo actual tail tail' (first :: rest) input') :
    ∃ rest', input' = first :: rest' ∧
      (SharesTo actual tail tail' rest rest' ∨ rest.length ≤ tail.length) := by
  obtain ⟨before, heq, rfl⟩ := h
  cases before with
  | nil =>
    obtain ⟨rfl, rfl⟩ := List.cons.inj heq
    exact ⟨tail', rfl, .inr (le_refl _)⟩
  | cons _ before =>
    obtain ⟨rfl, rfl⟩ := List.cons.inj heq
    exact ⟨before ++ actual :: tail', rfl, .inl ⟨before, rfl, rfl⟩⟩

lemma SharesTo.eq_of_head (h : SharesTo actual tail tail' (actual :: tail) input') :
    input' = actual :: tail' := by
  obtain ⟨before, heq, rfl⟩ := h
  have hlength := congrArg List.length heq
  simp only [List.length_append, List.length_cons] at hlength
  obtain rfl := List.length_eq_zero_iff.mp (show before.length = 0 by omega)
  rfl

/-- Behind a carriage return there has to be a line feed. -/
lemma Reader.lineBreak_return (rest : List Octet) :
    lineBreak ('\r'.toUInt8 :: rest) = exactly .lineFeedAfterReturn '\n' rest := by
  have hreturn : exactly .carriageReturn '\r' ('\r'.toUInt8 :: rest) = .ok ((), rest) :=
    exactly_eq_ok.mpr rfl
  have hfeed : exactly .lineBreak '\n' ('\r'.toUInt8 :: rest) =
      .error ⟨.lineBreak, '\r'.toUInt8 :: rest, false⟩ :=
    exactly_of_bars (bars_cons (by decide))
  simp only [lineBreak, Reader.or, bind_of_ok hreturn, hfeed]
  cases hread : exactly .lineFeedAfterReturn '\n' rest with
  | ok => rfl
  | error mismatch =>
    have hopen := (staysOpen_exactly _ _).not_committed hread
    have hrest := exactly_eq_error hread
    have hshorter : ¬ rest.length + 1 < rest.length := by omega
    simp [hopen, hrest, hshorter, Mismatch.furthest]

lemma SharesTo.exactly (h : SharesTo actual tail tail' input input') (expected : Expected)
    (char : Char) :
    InStep (SharesTo actual tail tail') (fun rest => rest.length ≤ tail.length)
      (Reader.exactly expected char input) (Reader.exactly expected char input') := by
  cases input with
  | nil =>
    obtain ⟨before, heq, -⟩ := h
    simp at heq
  | cons first rest =>
    obtain ⟨rest', rfl, hrest⟩ := h.cons
    by_cases hfirst : first = char.toUInt8
    · rw [exactly_eq_ok.mpr (congrArg (· :: rest) hfirst),
        exactly_eq_ok.mpr (congrArg (· :: rest') hfirst)]
      exact hrest.elim (.ok ()) fun hpast => .past hpast
    · have hbars : (first == char.toUInt8) = false := beq_eq_false_iff_ne.mpr hfirst
      rw [exactly_of_bars (bars_cons hbars), exactly_of_bars (bars_cons hbars)]
      exact .error _ false h

lemma SharesTo.lineBreak (h : SharesTo actual tail tail' input input') :
    InStep (SharesTo actual tail tail') (fun rest => rest.length ≤ tail.length) (lineBreak input)
      (lineBreak input') := by
  cases input with
  | nil =>
    obtain ⟨before, heq, -⟩ := h
    simp at heq
  | cons first rest =>
    obtain ⟨rest', rfl, hrest⟩ := h.cons
    by_cases hfeed : first = '\n'.toUInt8
    · subst hfeed
      rw [lineBreak_eq_ok.mpr (.feed _), lineBreak_eq_ok.mpr (.feed _)]
      exact hrest.elim (.ok ()) fun hpast => .past hpast
    by_cases hreturn : first = '\r'.toUInt8
    · subst hreturn
      rw [lineBreak_return, lineBreak_return]
      obtain hrest | hpast := hrest
      · exact hrest.exactly _ _
      · exact .past ((recedes_exactly _ _ rest).length_le.trans hpast)
    · have hbars : first.isBreak = false := by simp [Octet.isBreak, hreturn, hfeed]
      rw [lineBreak_of_bars (bars_cons hbars), lineBreak_of_bars (bars_cons hbars)]
      exact .error _ false h

/-- Documents that are the same up to an octet are read in step up to there. -/
lemma simulation_sharesTo :
    Simulation (SharesTo actual tail tail') fun rest => rest.length ≤ tail.length where
  nil := by
    rintro input' ⟨before, heq, -⟩
    simp at heq
  cons h _ := h.cons
  cons_break h hfirst := by
    obtain ⟨rest', rfl, -⟩ := h.cons
    exact ⟨_, rest', rfl, hfirst⟩
  lineBreak h := h.lineBreak
  length_lt_iff := by
    rintro _ _ _ _ ⟨before, rfl, rfl⟩ ⟨other, rfl, rfl⟩
    simp only [List.length_append, List.length_cons]
    omega
  not_past := by
    rintro _ _ ⟨before, rfl, rfl⟩
    simp only [List.length_append, List.length_cons]
    omega
  past_of_le h hle := hle.trans h

/-- A mismatch at an octet is the same for all documents that are the same up to there. -/
lemma Reader.definitions_sharesTo {before : List Octet} {expected : Expected} {committed : Bool}
    (hmismatch : definitions (before ++ actual :: tail) =
      .error ⟨expected, actual :: tail, committed⟩)
    (hexpected : expected ≠ .wordValue)
    (htentative : ¬ IsTentative (before ++ actual :: tail) expected (actual :: tail))
    (tail' : List Octet) :
    definitions (before ++ actual :: tail') = .error ⟨expected, actual :: tail', committed⟩ := by
  have hread : ReadAlike (SharesTo actual tail tail') (fun rest => rest.length ≤ tail.length)
      (before ++ actual :: tail).length (before ++ actual :: tail').length
      (before ++ actual :: tail) (definitions (before ++ actual :: tail))
      (definitions (before ++ actual :: tail')) :=
    simulation_sharesTo.definitionsUpTo ⟨before, rfl, rfl⟩ (le_refl _) (le_refl _)
  rw [hmismatch] at hread
  generalize definitions (before ++ actual :: tail') = outcome' at hread
  cases hread with
  | error expected committed hrest =>
    obtain rfl := hrest.eq_of_head
    rfl
  | past _ hpast =>
    obtain hpast | hvalue := hpast _ rfl
    · exact absurd hpast (Nat.not_succ_le_self tail.length)
    · exact absurd hvalue hexpected
  | tentative h => exact absurd h htentative

/-- A document that begins with the octets up to one that is read ahead need not be refused. -/
lemma IsTentative.exists_read {before : List Octet} {expected : Expected}
    (h : IsTentative (before ++ actual :: tail) expected (actual :: tail)) :
    ∃ more, (∃ grammar, Grammar.read (before ++ actual :: more) = .ok grammar) ∨
      ∃ rule place, Grammar.read (before ++ actual :: more) = .error (.collision rule place) := by
  obtain ⟨word, more, heq, hlines⟩ := h.within
  have happend : (before ++ [actual]) ++ tail = word ++ tail := by simpa using heq
  obtain rfl : before ++ [actual] = word := List.append_cancel_right happend
  obtain ⟨definitions, hdocument⟩ := Lines.exists_definitionsDerive _ (hlines [])
  have hdocument : IsDocument definitions (before ++ actual :: more) := by
    simpa [IsDocument] using hdocument
  exact ⟨more, hdocument.read⟩

/-- A mismatch that is not about the size of a number is reported at one offset of the document, with
the octet there. Where this octet has been read ahead in a rule, some document that begins with the
octets up to it is not refused, and else all of them are, with the same mismatch. -/
theorem Grammar.mismatch_persists {document : List Octet} {expected : Expected} {actual : Octet}
    {position : Position}
    (h : Grammar.read document = .error (.mismatch expected (some actual) position))
    (hexpected : expected ≠ .wordValue) :
    ∃ offset < document.length,
      (∀ other ≤ document.length, Position.locate document other = position ↔ other = offset) ∧
      document[offset]? = some actual ∧
      (¬ IsTentative document expected (document.drop offset) →
        ∀ tail, Grammar.read (document.take (offset + 1) ++ tail) =
          .error (.mismatch expected (some actual) position)) ∧
      (IsTentative document expected (document.drop offset) →
        ∃ tail, (∃ grammar, Grammar.read (document.take (offset + 1) ++ tail) = .ok grammar) ∨
          ∃ rule place, Grammar.read (document.take (offset + 1) ++ tail) =
            .error (.collision rule place)) := by
  obtain ⟨⟨expected, rest, committed⟩, hmismatch⟩ := Grammar.read_eq_mismatch.mp ⟨_, _, _, h⟩
  simp only [Grammar.read, hmismatch, ReadError.ofMismatch, Except.error.injEq,
    ReadError.mismatch.injEq] at h
  obtain ⟨rfl, hactual, rfl⟩ := h
  obtain ⟨tail, rfl⟩ := List.head?_eq_some_iff.mp hactual
  obtain ⟨before, rfl⟩ := (definitionsUpTo_eq_error hmismatch).suffix
  have hlength : before.length < (before ++ actual :: tail).length := by simp
  have htake : ∀ tail', (before ++ actual :: tail).take (before.length + 1) ++ tail' =
      before ++ actual :: tail' := by simp [List.take_append]
  refine ⟨before.length, hlength, fun other hother => ?_, by simp, ?_⟩
  · rw [List.length_append, Nat.add_sub_cancel, Position.locate_inj hother hlength.le]
  simp only [List.drop_left, htake]
  refine ⟨fun htentative tail' => ?_, IsTentative.exists_read⟩
  have hmismatch' := definitions_sharesTo hmismatch hexpected htentative tail'
  simp only [Grammar.read, hmismatch', ReadError.ofMismatch, Position.locate_behind,
    List.head?_cons]

/-- A digit behind white space is refused for good where no rule has been begun, also if a comment
before it reads like a rule body. -/
theorem Grammar.mismatch_persists_behindComment :
    Grammar.read (Utf8.encode "; b\n 3") =
        .error (.mismatch .commentOrLineBreak (some 0x33) ⟨2, 2⟩) ∧
      Expected.commentOrLineBreak ≠ .wordValue ∧
      ∀ tail, Grammar.read (Utf8.encode "; b\n 3" ++ tail) =
        .error (.mismatch .commentOrLineBreak (some 0x33) ⟨2, 2⟩) := by
  have hread : Grammar.read (Utf8.encode "; b\n 3") =
      .error (.mismatch .commentOrLineBreak (some 0x33) ⟨2, 2⟩) := by decide +kernel
  have hencode : Utf8.encode "; b\n 3" = [0x3B, 0x20, 0x62, 0x0A, 0x20, 0x33] := by decide +kernel
  refine ⟨hread, by decide, ?_⟩
  obtain ⟨offset, hoffset, hposition, -, hpersists, -⟩ :=
    Grammar.mismatch_persists hread (by decide)
  obtain rfl : 5 = offset := (hposition 5 (by decide +kernel)).mp (by decide +kernel)
  refine hpersists ?_
  -- A rule would have to begin with a letter at the beginning of a line.
  rintro ⟨start, hlines, hrule⟩
  obtain ⟨first, others, rfl, hfirst⟩ := hrule.head
  have hfeed : '\n'.toUInt8 = 0x0A := by decide
  have hspace : Octet.isAlpha 0x20 = false := by decide
  obtain heq | ⟨front, heq⟩ := Lines.eq_or_exists_append hlines (List.cons_ne_nil _ _)
  all_goals rw [hencode] at heq
  · cases heq
    revert hfirst
    decide
  · have hsuffix : '\n'.toUInt8 :: first :: others <:+ [0x3B, 0x20, 0x62, 0x0A, 0x20, 0x33] :=
      ⟨front, heq.symm⟩
    obtain ⟨rfl, -⟩ : first = 0x20 ∧ others = [0x33] := by
      simpa [List.suffix_cons_iff, hfeed] using hsuffix
    rw [hspace] at hfirst
    contradiction

/-- A group that is not closed in its line may still be closed in the next one, if this one is
indented. The end of the line is reported nevertheless. -/
theorem Grammar.not_mismatch_persists_lineEnd :
    Grammar.read (Utf8.encode "a = (b\nc\n") =
        .error (.mismatch .closingParenthesis (some 0x0A) ⟨1, 7⟩) ∧
      Position.locate (Utf8.encode "a = (b\nc\n") 6 = ⟨1, 7⟩ ∧
      6 < (Utf8.encode "a = (b\nc\n").length ∧
      Grammar.read ((Utf8.encode "a = (b\nc\n").take (6 + 1) ++ Utf8.encode " )\n") =
        .ok ⟨[⟨"a", .basic, [[⟨none, .group [[⟨none, .reference "b"⟩]]⟩]]⟩]⟩ := by
  decide +kernel

end AugmentedBnf
