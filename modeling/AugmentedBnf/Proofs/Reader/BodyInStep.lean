import AugmentedBnf.Proofs.Reader.Tentative

/-!
# Two runs over a rule body

Two runs over rule bodies stay in step, or the first of them ends before what it has given back. Whatever
closes the body then either finds this or reports it.

* `Abreast`: readers of elements whose runs follow each other.
* `Abreast.concatenationOf`, `Abreast.alternationOf`, `Simulation.elementOf`: one level of nesting.
* `Simulation.elementUpTo`: any nesting.
-/

namespace AugmentedBnf

open Reader

/-! What has been read ahead is reported by readers that are committed to what they read. -/

def ReportsElement (input : List Octet) (mismatch : Mismatch) : Prop :=
  mismatch.committed ∧ Element.IsTentative input mismatch.expected mismatch.rest

def ReportsRepetition (input : List Octet) (mismatch : Mismatch) : Prop :=
  mismatch.committed ∧ Repetition.IsTentative input mismatch.expected mismatch.rest

/-- The input is that behind a repetition. -/
def ReportsRepetitions (input : List Octet) (mismatch : Mismatch) : Prop :=
  mismatch.committed ∧ ∃ start, SomeBlanks input start ∧
    Concatenation.IsTentative start mismatch.expected mismatch.rest

/-- The input is that behind a branch. -/
def ReportsBranches (closing : Expected) (input : List Octet) (mismatch : Mismatch) : Prop :=
  mismatch.committed ∧ ∃ middle start, Blanks input ('/'.toUInt8 :: middle) ∧
    Blanks middle start ∧ Alternation.IsTentative closing start mismatch.expected mismatch.rest

section

variable (R : List Octet → List Octet → Prop) (Past : List Octet → Prop)

/-- Readers of elements that take nothing else and decline where there are none. -/
structure Abreast (element element' : Reader Element) : Prop where
  sound : element.Sound
  sound' : element'.Sound
  recedes : element.Recedes
  declines {input} (hinput : Bars Octet.opensElement input) : element.Declines input
  missing {input mismatch} (h : element input = .error mismatch)
    (hopen : mismatch.committed = false) : mismatch = ⟨.element, input, false⟩
  follows {input input'} (h : R input input') :
    Follows R Past (ReportsElement input) (fun value => EndsNumeric Past (value = .numeric ·))
      (element input) (element' input')

/-- Inputs that belong together and have a certain length at most. -/
def UpTo (length length' : Nat) (input input' : List Octet) : Prop :=
  R input input' ∧ input.length ≤ length ∧ input'.length ≤ length'

end

variable {α β : Type} {R : List Octet → List Octet → Prop} {Past : List Octet → Prop}
  {Reports : Mismatch → Prop} {Ends : α → List Octet → Prop} {IsLast : Numeric → Prop}
  {input input' : List Octet}

lemma Reader.rest_of_bounds_eq_error {mismatch : Mismatch} (h : bounds input = .error mismatch)
    (hopen : mismatch.committed = false) : mismatch.rest = input := by
  have hcommitted : ¬ mismatch.committed := by simp [hopen]
  simp only [bounds, AugmentedBnf.bind_eq_error, Prod.exists] at h
  obtain h | ⟨min, middle, -, h | ⟨star, behind, -, h⟩⟩ := h
  · exact absurd (optional_eq_error h).2 hcommitted
  · exact absurd (optional_eq_error h).2 hcommitted
  · split at h
    · cases h
    · obtain h | ⟨_, -, h⟩ := AugmentedBnf.bind_eq_error.mp h
      · exact absurd (optional_eq_error h).2 hcommitted
      · cases h
    · cases h
      rfl

lemma Reader.blank_of_many1_blank_eq_error {mismatch : Mismatch}
    (h : many1 blank input = .error mismatch) : blank input = .error mismatch := by
  simp only [many1, Reader.bind_eq_error, pure_ne_error, and_false, exists_false, or_false] at h
  rcases h with hfirst | ⟨_, _, _, hothers⟩
  · exact hfirst
  · exact absurd hothers (staysOpen_blank.many_ne_error shrinks_blank)

namespace Abreast

variable {element element' : Reader Element} (helement : Abreast R Past element element')
include helement

lemma missing_of_lineEnd {first : Octet} {others : List Octet} (hfirst : first.isLineEnd) :
    element (first :: others) = .error ⟨.element, first :: others, false⟩ := by
  have hbars : Bars Octet.opensElement (first :: others) :=
    bars_cons (Octet.not_of_isLineEnd hfirst).2.1
  obtain ⟨mismatch, hmismatch, hopen⟩ := helement.declines hbars
  rw [hmismatch, helement.missing hmismatch hopen]

/-- Repetitions fail where their elements do, behind their bounds. -/
lemma repetitionOf_eq_error {mismatch : Mismatch}
    (h : repetitionOf element input = .error mismatch) (hopen : mismatch.committed = false) :
    mismatch = ⟨.element, input, false⟩ ∨
      ∃ (bounds : Repeat) (rest : _), bounds.Derives input rest ∧
        mismatch = ⟨.element, rest, false⟩ := by
  simp only [Reader.repetitionOf, Reader.bind_eq_error, pure_ne_error, and_false, exists_false,
    or_false] at h
  obtain h | ⟨_, rest, hbounds, h⟩ := h
  · exact absurd (optional_eq_error h).2 (by simp [hopen])
  · obtain rfl := helement.missing h hopen
    obtain ⟨bounds, hbounds, -⟩ | ⟨-, -, rfl⟩ := optional_eq_ok.mp hbounds
    · exact .inr ⟨bounds, rest, derives_of_bounds hbounds, rfl⟩
    · exact .inl rfl

lemma repetitionOf_of_lineEnd {first : Octet} {others : List Octet} (hfirst : first.isLineEnd) :
    repetitionOf element (first :: others) = .error ⟨.element, first :: others, false⟩ := by
  have hbars : Bars Octet.isBound (first :: others) :=
    bars_cons (Octet.not_of_isLineEnd hfirst).1
  refine Reader.bind_eq_error.mpr (.inr ⟨none, _, optional_of_declines (bounds_declines hbars), ?_⟩)
  exact Reader.bind_eq_error.mpr (.inl (helement.missing_of_lineEnd hfirst))

variable (hs : Simulation R Past)
include hs

lemma repetitionOf (h : R input input') :
    Follows R Past (ReportsRepetition input)
      (fun repetition => EndsNumeric Past (repetition.element = .numeric ·))
      (Reader.repetitionOf element input) (Reader.repetitionOf element' input') := by
  have hbounds : InStep R Past (optional bounds input) (optional bounds input') := by
    -- Bounds are optional, so a mismatch of theirs would be given back, but then nothing was taken.
    refine (InStep.optional h (hs.bounds h)).resolve_right fun hback => ?_
    exact hs.not_givesBack h rest_of_bounds_eq_error hback.2
  refine hbounds.bind_follows hs (fun bounds => helement.recedes.bind fun _ => recedes_pure _)
    fun {bounds start _} hread hstart => ?_
  refine (helement.follows hstart).bind_pure hs ?_ fun _ hends => hends
  rintro mismatch ⟨hcommitted, htentative⟩
  refine ⟨hcommitted, ?_⟩
  obtain ⟨bounds, hread, -⟩ | ⟨-, -, rfl⟩ := optional_eq_ok.mp hread
  · exact .repeated (derives_of_bounds hread) htentative
  · exact .once htentative

/-! ### Concatenations -/

omit helement hs in
lemma many_of_endsNumeric {rest : List Octet} (h : EndsNumeric Past IsLast rest) :
    many (Reader.nextRepetition element) rest = .ok ([], rest) := by
  cases h with
  | mk _ hfirst =>
    obtain ⟨mismatch, hmismatch, hopen⟩ : (Reader.nextRepetition element).Declines _ :=
      bind_declines.mpr (.inl (many1_blank_declines
        (not_blank_of_not_opensBlank hfirst.not_opensBlank.1)))
    rw [many_of_error hmismatch, if_neg (by simp [hopen])]

/-- Repetitions end where the next one is given back. -/
lemma wavers_of_givesBack (hgives : (Reader.nextRepetition element).GivesBack Past input) :
    Wavers Past IsLast input := by
  obtain ⟨mismatch, hmismatch, hopen, hpast⟩ := hgives
  obtain hblank | ⟨_, start, hblanks, hrepetition⟩ := Reader.bind_eq_error.mp hmismatch
  · have hblank := blank_of_many1_blank_eq_error hblank
    have hnone := blank_declines.mp ⟨mismatch, hblank, hopen⟩
    exact .blanks ⟨.refl, hnone⟩ (.inr ⟨mismatch, hblank, hopen, hpast⟩)
  · obtain ⟨middle, hblank, hsettles⟩ := exists_many1_blank.mp ⟨_, hblanks⟩
    obtain rfl | ⟨bounds, rest, hbounds, rfl⟩ := helement.repetitionOf_eq_error hrepetition hopen
    · exact .blanks (hsettles.head (.single hblank)) (.inl hpast)
    · obtain ⟨first, others, rfl, hfirst⟩ := hbounds.head
      exact .bounds (.head' hblank hsettles.1) hfirst (hs.past_of_le hpast (Nat.zero_le _))

omit hs in
/-- Repetitions end behind one that ends with a numeric value that may go on. -/
lemma loose_of_repetition {units : List Unit} {start : List Octet}
    (hread : many1 blank input = .ok (units, start))
    (h : Loose Past (ReportsRepetition start)
      (fun repetition => EndsNumeric Past (repetition.element = .numeric ·))
      (Reader.repetitionOf element start)) :
    Loose Past (ReportsRepetitions input) (fun others => Wavers Past (Concatenation.EndsWith others))
      (many (Reader.nextRepetition element) input) := by
  have hnext : Reader.nextRepetition element input = Reader.repetitionOf element start :=
    bind_of_ok hread
  generalize hrepetition : Reader.repetitionOf element start = outcome at h
  rw [hrepetition] at hnext
  cases h with
  | ok hends =>
    rw [many_of_ok helement.sound.shrinks_nextRepetition hnext, many_of_endsNumeric hends]
    exact .ok (.numeric (hends.imp fun hlast => ⟨_, rfl, hlast⟩))
  | error hreports hpast =>
    obtain ⟨hcommitted, htentative⟩ := hreports
    obtain ⟨middle, hblank, hsettles⟩ := exists_many1_blank.mp ⟨_, hread⟩
    rw [many_of_error hnext, if_pos hcommitted]
    exact .error ⟨hcommitted, start, .head' hblank hsettles.1, .first htentative⟩ hpast

/-- One more repetition stays in step, or it is where the repetitions end. -/
lemma nextRepetition (h : R input input') :
    InStep R Past (Reader.nextRepetition element input) (Reader.nextRepetition element' input') ∧
      ¬ (Reader.nextRepetition element).GivesBack Past input ∨
    Loose Past (ReportsRepetitions input) (fun others => Wavers Past (Concatenation.EndsWith others))
      (many (Reader.nextRepetition element) input) := by
  by_cases hloose : Loose Past (ReportsRepetitions input)
      (fun others => Wavers Past (Concatenation.EndsWith others))
      (many (Reader.nextRepetition element) input)
  · exact .inr hloose
  -- Were the turn given back, the repetitions would end loosely, which has been excluded.
  have hgives : ¬ ∃ mismatch, Reader.nextRepetition element input = .error mismatch ∧
      mismatch.committed = false ∧ Wavers Past (Concatenation.EndsWith []) input := by
    rintro ⟨mismatch, hmismatch, hopen, hwavers⟩
    rw [many_of_error hmismatch, if_neg (by simp [hopen])] at hloose
    exact hloose (.ok hwavers)
  refine .inl ⟨?_, fun hback => ?_⟩
  · -- Both turns take blanks, and the repetition cannot be the one that ends loosely.
    obtain hblanks | ⟨units, stop, hblanks, hstalls⟩ := hs.many1_blank h
    · refine hs.bind hblanks (fun _ => helement.recedes.repetitionOf) fun {_ start _} hread h => ?_
      refine (helement.repetitionOf hs h).resolve_right fun hrepetition => hloose ?_
      exact helement.loose_of_repetition hread hrepetition
    · -- The first run stalls, at what is past or at a line end before an element.
      have hnext : Reader.nextRepetition element input = Reader.repetitionOf element stop :=
        bind_of_ok hblanks
      obtain hpast | ⟨⟨first, others, rfl, hfirst⟩, -⟩ := hstalls.cases
      · refine .past (hs.past_of_le hpast ?_)
        rw [hnext]
        exact (helement.recedes.repetitionOf stop).length_le
      · obtain ⟨middle, hblank, hsettles⟩ := exists_many1_blank.mp ⟨_, hblanks⟩
        rw [helement.repetitionOf_of_lineEnd hfirst] at hnext
        exact absurd ⟨_, hnext, rfl, .blanks (hsettles.head (.single hblank)) hstalls⟩ hgives
  · obtain ⟨mismatch, hmismatch, hopen, -⟩ := id hback
    exact hgives ⟨mismatch, hmismatch, hopen, helement.wavers_of_givesBack hs hback⟩

lemma many_nextRepetition (h : R input input') :
    Follows R Past (ReportsRepetitions input)
      (fun others => Wavers Past (Concatenation.EndsWith others))
      (many (Reader.nextRepetition element) input) (many (Reader.nextRepetition element') input') := by
  refine hs.many helement.sound.shrinks_nextRepetition helement.sound'.shrinks_nextRepetition
    helement.recedes.nextRepetition
    (motive := fun input => Loose Past (ReportsRepetitions input)
      (fun others => Wavers Past (Concatenation.EndsWith others)))
    (fun h => helement.nextRepetition hs h) ?_ h
  -- A turn that is in step hands on what the loop reports behind it, one repetition further on.
  intro input middle value outcome hread hmiddle
  obtain ⟨start, hblanks, hvalue⟩ := helement.sound.nextRepetition hread
  refine hmiddle.map ?_ fun hwavers => hwavers.imp ?_
  · rintro mismatch ⟨hcommitted, next, hnext, htentative⟩
    exact ⟨hcommitted, start, hblanks, .behind hvalue hnext htentative⟩
  · rintro value ⟨last, hlast, helement⟩
    exact ⟨last, List.mem_getLast?_cons hlast, helement⟩

lemma concatenationOf (h : R input input') :
    Follows R Past
      (fun mismatch => mismatch.committed ∧
        Concatenation.IsTentative input mismatch.expected mismatch.rest)
      (fun concatenation => Wavers Past (Concatenation.EndsWith concatenation))
      (Reader.concatenationOf element input) (Reader.concatenationOf element' input') := by
  rw [concatenationOf_eq, concatenationOf_eq]
  refine (helement.repetitionOf hs h).bind hs
    (fun _ => helement.recedes.nextRepetition.many.bind fun _ => recedes_pure _) ?_
    -- A repetition that ends with a numeric value that may go on is the last one.
    (fun {first rest _} hread hrest => ?_) fun {first rest} hread hends => ?_
  · rintro mismatch ⟨hcommitted, htentative⟩
    exact ⟨hcommitted, .first htentative⟩
  · have hfirst : first.Derives input rest := helement.sound.repetitionOf hread
    refine (helement.many_nextRepetition hs hrest).bind_pure hs ?_ fun _ hwavers => hwavers.imp ?_
    · rintro mismatch ⟨hcommitted, start, hblanks, htentative⟩
      exact ⟨hcommitted, .behind hfirst hblanks htentative⟩
    · rintro value ⟨last, hlast, helement⟩
      exact ⟨last, List.mem_getLast?_cons hlast, helement⟩
  · rw [bind_of_ok (many_of_endsNumeric hends)]
    exact .inr (.ok (.numeric (hends.imp fun hlast => ⟨first, rfl, hlast⟩)))

end Abreast

/-! ### Alternations -/

lemma Settles.unique {rest rest' : List Octet} (h : Settles input rest)
    (h' : Settles input rest') : rest = rest' := by
  have hread : blanks input = .ok ((), rest) := blanks_eq_ok.mpr h
  have hread' : blanks input = .ok ((), rest') := blanks_eq_ok.mpr h'
  simpa using hread.symm.trans hread'

/-- Blanks end in step, or where the first run stalls. -/
lemma Simulation.followsBlanks (hs : Simulation R Past) (h : R input input') :
    Follows R Past (fun _ => False) (fun _ => Stalls Past) (Reader.blanks input)
      (Reader.blanks input') := by
  obtain ⟨rest, rest', hread, hread', hrest⟩ | ⟨stop, hread, hstop⟩ := hs.blanks h
  · rw [hread, hread']
    exact .inl (.ok () hrest)
  · rw [hread]
    exact .inr (.ok hstop)

/-- Where blanks have stalled, what has to begin with an element is missing. -/
lemma Stalls.missing (hs : Simulation R Past) {reader : Reader α} {rest : List Octet}
    (h : Stalls Past rest) (hrecedes : reader.Recedes)
    (hmissing : ∀ {first others}, Octet.isLineEnd first →
      reader (first :: others) = .error ⟨.element, first :: others, false⟩)
    (hreports : ∀ {first others}, rest = first :: others → Octet.isLineEnd first →
      Reports ⟨.element, first :: others, false⟩) :
    Past (remainder (reader rest)) ∨ Loose Past Reports Ends (reader rest) := by
  obtain hpast | ⟨⟨first, others, rfl, hfirst⟩, hend⟩ := h.cases
  · exact .inl (hs.past_of_le hpast (hrecedes rest).length_le)
  · rw [hmissing hfirst]
    exact .inr (.error (hreports rfl hfirst) (hs.past_of_le hend (Nat.zero_le _)))

namespace Abreast

variable {element element' : Reader Element} (helement : Abreast R Past element element')
include helement

lemma concatenationOf_of_lineEnd {first : Octet} {others : List Octet} (hfirst : first.isLineEnd) :
    Reader.concatenationOf element (first :: others) =
      .error ⟨.element, first :: others, false⟩ := by
  rw [concatenationOf_eq]
  exact Reader.bind_eq_error.mpr (.inl (helement.repetitionOf_of_lineEnd hfirst))

lemma alternationOf_of_lineEnd {first : Octet} {others : List Octet} (hfirst : first.isLineEnd) :
    Reader.alternationOf element (first :: others) =
      .error ⟨.element, first :: others, false⟩ := by
  rw [alternationOf_eq]
  exact Reader.bind_eq_error.mpr (.inl (helement.concatenationOf_of_lineEnd hfirst))

lemma recedes_branch :
    (do blanks; Reader.concatenationOf element : Reader Concatenation).Recedes :=
  recedes_blanks.bind fun _ => helement.recedes.concatenationOf

variable (hs : Simulation R Past) (closing : Expected)
include hs

/-- What stands behind a slash. -/
lemma branch (h : R input input') :
    Follows R Past
      (fun mismatch => ∃ start, Blanks input start ∧
        Alternation.IsTentative closing start mismatch.expected mismatch.rest)
      (fun branch => Wavers Past (Concatenation.EndsWith branch))
      ((do blanks; Reader.concatenationOf element : Reader Concatenation) input)
      ((do blanks; Reader.concatenationOf element' : Reader Concatenation) input') := by
  refine (hs.followsBlanks h).bind hs
    (fun _ => helement.recedes.concatenationOf) (fun hfalse => hfalse.elim)
    (fun {_ rest _} hread hrest => ?_) fun {_ rest} hread hstalls => ?_
  all_goals have hblanks : Blanks input rest := (blanks_eq_ok.mp hread).1
  · refine (helement.concatenationOf hs hrest).imp ?_
    rintro mismatch ⟨-, htentative⟩
    exact ⟨rest, hblanks, .first htentative⟩
  · refine hstalls.missing hs helement.recedes.concatenationOf helement.concatenationOf_of_lineEnd ?_
    rintro first others rfl hfirst
    exact ⟨_, hblanks, .branch hfirst⟩

omit helement hs in
/-- Only a slash may be missing without being committed to a branch. -/
lemma nextBranch_eq_error {mismatch : Mismatch}
    (h : Reader.nextBranch element input = .error mismatch) (hopen : mismatch.committed = false) :
    ∃ stop, Settles input stop ∧ (exactly .branchSlash '/').Declines stop ∧
      mismatch = ⟨.branchSlash, stop, false⟩ := by
  simp only [Reader.nextBranch, Reader.bind_eq_error, blanks_ne_error, false_or] at h
  obtain ⟨_, stop, hblanks, hslash | ⟨_, _, -, hbranch⟩⟩ := h
  · have hdeclines : (exactly .branchSlash '/').Declines stop := ⟨mismatch, hslash, hopen⟩
    rw [exactly_of_bars (exactly_declines.mp hdeclines)] at hslash
    cases hslash
    exact ⟨stop, blanks_eq_ok.mp hblanks, hdeclines, rfl⟩
  · exact absurd (committed_of_commit hbranch) (by simp [hopen])

/-- Behind blanks that come past what is followed, or before anything but a slash, no branch is
followed. -/
lemma many_nextBranch_of_settles {rest stop : List Octet} (hsettles : Settles rest stop)
    (hstop : Past stop ∨ Bars (· == '/'.toUInt8) stop) :
    Past (remainder (many (Reader.nextBranch element) rest)) ∨
      many (Reader.nextBranch element) rest = .ok ([], rest) := by
  by_cases hslash : (exactly .branchSlash '/').Declines stop
  · right
    obtain ⟨mismatch, hmismatch, hopen⟩ : (Reader.nextBranch element).Declines rest :=
      bind_declines.mpr (.inr ⟨(), stop, blanks_eq_ok.mpr hsettles, bind_declines.mpr (.inl hslash)⟩)
    rw [many_of_error hmismatch, if_neg (by simp [hopen])]
  · -- The slash has been read, so it is the blanks before it that have come past.
    have hpast : Past stop := hstop.resolve_right fun hbars => hslash (exactly_declines.mpr hbars)
    have hblanks : blanks rest = .ok ((), stop) := blanks_eq_ok.mpr hsettles
    have hrecedes : (do
        exactly .branchSlash '/'
        Reader.commit (do blanks; Reader.concatenationOf element) : Reader Concatenation).Recedes :=
      (recedes_exactly _ _).bind fun _ => helement.recedes_branch.commit
    refine .inl (hs.past_many helement.sound.shrinks_nextBranch helement.recedes.nextBranch ?_ ?_)
    · refine hs.past_of_le hpast (List.IsSuffix.length_le ?_)
      rw [Reader.nextBranch, bind_of_ok hblanks]
      exact hrecedes stop
    · rintro ⟨mismatch, hmismatch, hopen, -⟩
      obtain ⟨other, hother, hdeclines, -⟩ := nextBranch_eq_error hmismatch hopen
      exact hslash (hother.unique hsettles ▸ hdeclines)

lemma many_nextBranch_of_wavers {rest : List Octet} (h : Wavers Past IsLast rest) :
    Past (remainder (many (Reader.nextBranch element) rest)) ∨
      many (Reader.nextBranch element) rest = .ok ([], rest) := by
  -- None of the three ways to waver lets a slash follow.
  cases h with
  | blanks hblanks hstop =>
    refine helement.many_nextBranch_of_settles hs hblanks (hstop.cases.imp_right ?_)
    rintro ⟨⟨first, others, rfl, hfirst⟩, -⟩
    exact bars_cons (beq_eq_false_iff_ne.mpr (Octet.not_of_isLineEnd hfirst).2.2)
  | bounds hblanks hfirst =>
    have hbound := Octet.not_opensBlank_of_isBound hfirst
    exact helement.many_nextBranch_of_settles hs (.of_head hblanks.to_reflTransGen hbound.1)
      (.inr (bars_cons (beq_eq_false_iff_ne.mpr hbound.2)))
  | numeric h =>
    cases h with
    | mk _ hfirst =>
      have hgoes := hfirst.not_opensBlank
      exact helement.many_nextBranch_of_settles hs (.of_head .refl hgoes.1)
        (.inr (bars_cons (beq_eq_false_iff_ne.mpr hgoes.2)))

/-- Branches end behind one from which another run may differ. -/
lemma loose_of_branch
    (h : Loose Past (ReportsBranches closing input)
      (fun branch => Wavers Past (Concatenation.EndsWith branch)) (Reader.nextBranch element input)) :
    Past (remainder (many (Reader.nextBranch element) input)) ∨
      Loose Past (ReportsBranches closing input)
        (fun others => Wavers Past (Alternation.EndsWith others))
        (many (Reader.nextBranch element) input) := by
  generalize hnext : Reader.nextBranch element input = outcome at h
  cases h with
  | ok hwavers =>
    rw [many_of_ok helement.sound.shrinks_nextBranch hnext]
    refine (helement.many_nextBranch_of_wavers hs hwavers).imp (fun hpast => ?_) fun hmany => ?_
    · rwa [remainder_map]
    · rw [hmany]
      exact .ok (hwavers.imp fun hends => ⟨_, rfl, hends⟩)
  | error hreports hpast =>
    rw [many_of_error hnext, if_pos hreports.1]
    exact .inr (.error hreports hpast)

/-- One more branch stays in step, or it is where the branches end. -/
lemma nextBranch (h : R input input') :
    InStep R Past (Reader.nextBranch element input) (Reader.nextBranch element' input') ∧
      ¬ (Reader.nextBranch element).GivesBack Past input ∨
    Past (remainder (many (Reader.nextBranch element) input)) ∨
    Loose Past (ReportsBranches closing input)
      (fun others => Wavers Past (Alternation.EndsWith others))
      (many (Reader.nextBranch element) input) := by
  -- The two runs agree on the blanks, or the first one stalls in them and there is no branch.
  obtain ⟨rest, rest', hread, hread', hrest⟩ | ⟨stop, hread, hstop⟩ := hs.blanks h
  · have hblanks : Blanks input rest := (blanks_eq_ok.mp hread).1
    have hnext : Follows R Past (ReportsBranches closing input)
        (fun branch => Wavers Past (Concatenation.EndsWith branch))
        (Reader.nextBranch element input) (Reader.nextBranch element' input') := by
      rw [Reader.nextBranch, Reader.nextBranch, bind_of_ok hread, bind_of_ok hread']
      have hslash : InStep R Past (exactly .branchSlash '/' rest) (exactly .branchSlash '/' rest') :=
        hs.exactly _ (by decide) hrest
      refine hslash.bind_follows hs
        (fun _ => helement.recedes_branch.commit)
        fun {_ middle _} hread h => ?_
      obtain rfl := exactly_eq_ok.mp hread
      refine (helement.branch hs closing h).commit ?_
      rintro mismatch ⟨start, hstart, htentative⟩
      exact ⟨rfl, middle, start, hblanks, hstart, htentative⟩
    obtain hin | hloose := hnext
    · -- What would be given back here is the slash, which stands before what is past.
      refine .inl ⟨hin, ?_⟩
      rintro ⟨mismatch, hmismatch, hopen, hpast⟩
      obtain ⟨stop, hsettles, -, rfl⟩ := nextBranch_eq_error hmismatch hopen
      rw [hsettles.unique (blanks_eq_ok.mp hread)] at hpast
      exact hs.not_past hrest hpast
    · exact .inr (helement.loose_of_branch hs closing hloose)
  · right
    -- The blanks are given back with the slash that is missing behind them.
    have hwavers : Wavers Past (Alternation.EndsWith []) input :=
      .blanks (blanks_eq_ok.mp hread) hstop
    refine (helement.many_nextBranch_of_wavers hs hwavers).imp_right fun hmany => ?_
    rw [hmany]
    exact .ok hwavers

lemma many_nextBranch (h : R input input') :
    Follows R Past (ReportsBranches closing input)
      (fun others => Wavers Past (Alternation.EndsWith others))
      (many (Reader.nextBranch element) input) (many (Reader.nextBranch element') input') := by
  have hmany := hs.many helement.sound.shrinks_nextBranch helement.sound'.shrinks_nextBranch
    helement.recedes.nextBranch
    (motive := fun input outcome => Past (remainder outcome) ∨
      Loose Past (ReportsBranches closing input)
        (fun others => Wavers Past (Alternation.EndsWith others)) outcome)
    (fun h => helement.nextBranch hs closing h) ?_ h
  · obtain hin | hpast | hloose := hmany
    · exact .inl hin
    · exact .inl (.past hpast)
    · exact .inr hloose
  -- As for repetitions, only that what is past stays past whatever is put before it.
  intro input middle value outcome hread hmiddle
  obtain ⟨behind, start, hslash, hstart, hvalue⟩ := nextBranch_eq_ok.mp hread
  have hfirst : Concatenation.Derives value start middle := helement.sound.concatenationOf hvalue
  refine hmiddle.imp (fun hpast => ?_) fun hloose => hloose.map ?_ fun hwavers => hwavers.imp ?_
  · rwa [remainder_map]
  · rintro mismatch ⟨hcommitted, other, next, hother, hnext, htentative⟩
    exact ⟨hcommitted, behind, start, hslash.1, hstart.1, .behind hfirst hother hnext htentative⟩
  · rintro value ⟨last, hlast, hends⟩
    exact ⟨last, List.mem_getLast?_cons hlast, hends⟩

lemma alternationOf (h : R input input') :
    Follows R Past
      (fun mismatch => Alternation.IsTentative closing input mismatch.expected mismatch.rest)
      (fun alternation => Wavers Past (Alternation.EndsWith alternation))
      (Reader.alternationOf element input) (Reader.alternationOf element' input') := by
  rw [alternationOf_eq, alternationOf_eq]
  refine (helement.concatenationOf hs h).bind hs
    (fun _ => helement.recedes.nextBranch.many.bind fun _ => recedes_pure _)
    (fun hreports => .first hreports.2) (fun {first rest _} hread hrest => ?_)
    fun {first rest} hread hwavers => ?_
  · have hfirst : Concatenation.Derives first input rest := helement.sound.concatenationOf hread
    refine (helement.many_nextBranch hs closing hrest).bind_pure hs ?_ fun _ hwavers => hwavers.imp ?_
    · rintro mismatch ⟨-, middle, start, hslash, hstart, htentative⟩
      exact .behind hfirst hslash hstart htentative
    · rintro value ⟨last, hlast, hends⟩
      exact ⟨last, List.mem_getLast?_cons hlast, hends⟩
  · obtain hpast | hmany := helement.many_nextBranch_of_wavers hs hwavers
    · exact .inl (hs.past_bind hpast fun _ => recedes_pure _)
    · rw [bind_of_ok hmany]
      exact .inr (.ok (hwavers.imp fun hends => ⟨first, rfl, hends⟩))

end Abreast

/-! ### What closes a body -/

section

variable (R : List Octet → List Octet → Prop) (Past : List Octet → Prop)

/-- A reader of what has to follow a body and the blanks behind it. Where what is given back stands
instead, it is missing. -/
structure Closes (close : Reader Unit) (expected : Expected) : Prop where
  recedes : close.Recedes
  inStep {input input' : List Octet} (h : R input input') :
    InStep R Past (close input) (close input')
  missing {first others} (hfirst : Octet.isBound first ∨ ∃ value : Numeric, value.GoesOn first) :
    ∃ committed, close (first :: others) = .error ⟨expected, first :: others, committed⟩
  lineEnd {first others} (hfirst : Octet.isLineEnd first)
    (hend : Past (remainder (commentOrLineBreak (first :: others)))) :
    Past (remainder (close (first :: others))) ∨
    (expected = .closingParenthesis ∨ expected = .closingSquareBracket) ∧
      ∃ committed, close (first :: others) = .error ⟨expected, first :: others, committed⟩

end

/-- The end of a body, and the value it is read as. -/
def Reader.closing (close : Reader Unit) (value : α) : Reader α := do
  blanks
  close
  return value

namespace Closes

variable {close : Reader Unit} {expected : Expected} (hclose : Closes R Past close expected)
include hclose

lemma recedes_closing (value : α) : (closing close value).Recedes := by
  refine recedes_blanks.bind fun _ => ?_
  exact hclose.recedes.bind fun _ => recedes_pure value

omit hclose in
lemma closing_of_settles {rest stop : List Octet} (hsettles : Settles rest stop) (value : α) :
    closing close value rest = (do close; return value : Reader α) stop := by
  have hblanks : blanks rest = .ok ((), stop) := blanks_eq_ok.mpr hsettles
  rw [closing, bind_of_ok hblanks]

omit hclose in
lemma closing_eq_error {rest stop : List Octet} {mismatch : Mismatch}
    (hsettles : Settles rest stop) (h : close stop = .error mismatch) (value : α) :
    closing close value rest = .error mismatch := by
  rw [closing_of_settles hsettles]
  exact Reader.bind_eq_error.mpr (.inl h)

variable (hs : Simulation R Past)
include hs

/-- Behind a body that something has been given back from, what closes it is past what is followed,
or it is missing because of that. -/
lemma closing_of_wavers {rest : List Octet} {body : Alternation} (hbody : body.Derives input rest)
    (h : Wavers Past (Alternation.EndsWith body) rest) (value : α) :
    Past (remainder (closing close value rest)) ∨
      Loose Past (fun mismatch => Alternation.IsTentative expected input mismatch.expected mismatch.rest)
        Ends (closing close value rest) := by
  cases h with
  | blanks hblanks hstop =>
    -- A line end where blanks stall ends a rule, but it is missing the bracket of a group.
    obtain hpast | ⟨⟨first, others, rfl, hfirst⟩, hend⟩ := hstop.cases
    · refine .inl (hs.past_of_le hpast (List.IsSuffix.length_le ?_))
      rw [closing_of_settles hblanks]
      exact (hclose.recedes.bind fun _ => recedes_pure value) _
    obtain hpast | ⟨hexpected, _, hmissing⟩ := hclose.lineEnd hfirst hend
    · rw [closing_of_settles hblanks]
      exact .inl (hs.past_bind hpast fun _ => recedes_pure value)
    · rw [closing_eq_error hblanks hmissing]
      exact .inr (.error (.bracket hbody hblanks.1 hfirst hexpected)
        (hs.past_of_le hend (Nat.zero_le _)))
  | bounds hblanks hfirst hpast =>
    have hsettles := Settles.of_head hblanks.to_reflTransGen
      (Octet.not_opensBlank_of_isBound hfirst).1
    obtain ⟨_, hmissing⟩ := hclose.missing (.inl hfirst)
    rw [closing_eq_error hsettles hmissing]
    exact .inr (.error (.bounds hbody hblanks hfirst) hpast)
  | numeric h =>
    cases h with
    | mk hlast hfirst hpast =>
      obtain ⟨_, hmissing⟩ := hclose.missing (.inr ⟨_, hfirst⟩)
      rw [closing_eq_error (.of_head .refl hfirst.not_opensBlank.1) hmissing]
      exact .inr (.error (.numeric hbody hlast hfirst) hpast)

/-- What closes a body does so or is missing where the body is in step, and else as above. -/
lemma closed {element element' : Reader Element} (helement : Abreast R Past element element')
    (make : Alternation → α) (h : R input input') :
    Follows R Past
      (fun mismatch => Alternation.IsTentative expected input mismatch.expected mismatch.rest)
      (fun _ _ => False)
      ((do let body ← alternationOf element; closing close (make body) : Reader α) input)
      ((do let body ← alternationOf element'; closing close (make body) : Reader α) input') := by
  refine (helement.alternationOf hs expected h).bind hs (fun _ => hclose.recedes_closing _) id
    (fun {body rest rest'} hread hrest => ?_) fun {body rest} hread hwavers => ?_
  all_goals have hbody : body.Derives input rest := helement.sound.alternationOf hread
  · -- The blanks before the closing part are the last place where the runs can come apart.
    obtain ⟨stop, stop', hblanks, hblanks', hstop⟩ | ⟨stop, hblanks, hstalls⟩ := hs.blanks hrest
    · simp only [closing_of_settles (blanks_eq_ok.mp hblanks),
        closing_of_settles (blanks_eq_ok.mp hblanks')]
      exact .inl (hs.bind (hclose.inStep hstop) (fun _ => recedes_pure _) fun _ h => .ok _ h)
    · have hwavers : Wavers Past (Alternation.EndsWith body) rest :=
        .blanks (blanks_eq_ok.mp hblanks) hstalls
      exact (hclose.closing_of_wavers hs hbody hwavers (make body)).imp_left .past
  · exact hclose.closing_of_wavers hs hbody hwavers (make body)

end Closes

/-! ### Elements -/

lemma Simulation.closes_exactly (hs : Simulation R Past) {expected : Expected} {char : Char}
    (hexpected : expected = .closingParenthesis ∨ expected = .closingSquareBracket)
    (hchar : char = ')' ∨ char = ']') : Closes R Past (Reader.exactly expected char) expected where
  recedes := recedes_exactly _ _
  inStep := hs.exactly _ (by obtain rfl | rfl := hchar <;> decide)
  missing := by
    intro first others hfirst
    refine ⟨false, exactly_of_bars (bars_cons (beq_eq_false_iff_ne.mpr ?_))⟩
    obtain hfirst | ⟨value, hfirst⟩ := hfirst
    · rintro rfl
      revert hfirst
      obtain rfl | rfl := hchar <;> decide
    · cases hfirst <;> obtain rfl | rfl := hchar <;> decide
  lineEnd := by
    intro first others hfirst _
    refine .inr ⟨hexpected, false, exactly_of_bars (bars_cons (beq_eq_false_iff_ne.mpr ?_))⟩
    rintro rfl
    revert hfirst
    obtain rfl | rfl := hchar <;> decide

namespace Abreast

variable {element element' : Reader Element} (helement : Abreast R Past element element')
  (hs : Simulation R Past)
include helement hs

lemma bracketed {opening closing : Char} {expected : Expected}
    (hclose : Closes R Past (exactly expected closing) expected)
    (htentative : ∀ {inside start reported rest}, Blanks inside start →
      Alternation.IsTentative expected start reported rest →
      Element.IsTentative (opening.toUInt8 :: inside) reported rest)
    (h : R input input' ∨ Past input) :
    Follows R Past (ReportsElement (opening.toUInt8 :: input)) (fun _ _ => False)
      (Reader.bracketed opening closing expected element (opening.toUInt8 :: input))
      (Reader.bracketed opening closing expected element' (opening.toUInt8 :: input')) := by
  have hread : ∀ input, exactly .openingBracket opening (opening.toUInt8 :: input) =
      .ok ((), input) := fun input => exactly_eq_ok.mpr rfl
  rw [Reader.bracketed, Reader.bracketed, bind_of_ok (hread _), bind_of_ok (hread _)]
  have hrecedes : Recedes (do
      let body ← Reader.alternationOf element
      Reader.closing (exactly expected closing) body) :=
    helement.recedes.alternationOf.bind fun body => hclose.recedes_closing body
  -- Where the second run has no input of its own, the first is past already.
  obtain hpast | h := h.symm
  · exact .inl (.past (hs.past_of_le hpast
      ((recedes_blanks.bind fun _ => hrecedes).commit input).length_le))
  -- The mismatch is committed from here on, and it is one of the body behind the blanks.
  have hcommit {inner inner' : Reader Alternation} (hinner : Follows R Past
      (fun mismatch =>
        Element.IsTentative (opening.toUInt8 :: input) mismatch.expected mismatch.rest)
      (fun _ _ => False) (inner input) (inner' input')) :
      Follows R Past (ReportsElement (opening.toUInt8 :: input)) (fun _ _ => False)
        (Reader.commit inner input) (Reader.commit inner' input') :=
    hinner.commit fun htentative => ⟨rfl, htentative⟩
  refine hcommit ((hs.followsBlanks h).bind hs (fun _ => hrecedes)
    (fun hfalse => hfalse.elim) (fun {_ start _} hread hstart => ?_)
    fun {_ start} hread hstalls => ?_)
  all_goals have hblanks : Blanks input start := (blanks_eq_ok.mp hread).1
  · exact (hclose.closed hs helement id hstart).imp (htentative hblanks)
  · refine hstalls.missing hs hrecedes (fun hfirst => ?_) ?_
    · exact Reader.bind_eq_error.mpr (.inl (helement.alternationOf_of_lineEnd hfirst))
    · rintro first others rfl hfirst
      exact htentative hblanks (.branch hfirst)

end Abreast

lemma InStep.mono_of_suffix {length length' : Nat} {outcome outcome' : Except Mismatch (α × List Octet)}
    (h : InStep R Past outcome outcome') (hleft : (remainder outcome).length ≤ length)
    (hright : (remainder outcome').length ≤ length') :
    InStep (UpTo R length length') Past outcome outcome' := by
  cases h with
  | ok value h => exact .ok value ⟨h, hleft, hright⟩
  | error expected committed h => exact .error expected committed ⟨h, hleft, hright⟩
  | past h => exact .past h
  | overflow h => exact .overflow h

lemma Follows.mono {R' : List Octet → List Octet → Prop}
    {outcome outcome' : Except Mismatch (α × List Octet)}
    (hR : ∀ {rest rest'}, R rest rest' → R' rest rest')
    (h : Follows R Past Reports Ends outcome outcome') :
    Follows R' Past Reports Ends outcome outcome' :=
  h.imp_left fun hin => hin.mono hR

/-- Inputs that belong together go on doing so if they are to be no longer than they are. -/
lemma Simulation.upTo (hs : Simulation R Past) (length length' : Nat) :
    Simulation (UpTo R length length') Past where
  nil h := hs.nil h.1
  cons := by
    intro first rest input' h hfirst
    obtain ⟨h, hleft, hright⟩ := h
    obtain ⟨rest', rfl, hrest⟩ := hs.cons h hfirst
    simp only [List.length_cons] at hleft hright
    exact ⟨rest', rfl, hrest.imp_left fun hrest => ⟨hrest, by omega, by omega⟩⟩
  cons_break h := hs.cons_break h.1
  lineBreak := by
    intro input input' h
    obtain ⟨h, hleft, hright⟩ := h
    exact (hs.lineBreak h).mono_of_suffix ((recedes_lineBreak input).length_le.trans hleft)
      ((recedes_lineBreak input').length_le.trans hright)
  length_lt_iff h hother := hs.length_lt_iff h.1 hother.1
  not_past h := hs.not_past h.1
  past_of_le := hs.past_of_le

lemma Reader.committed_of_opened {expected : Expected} {opening : Char} {inner : Reader α}
    {mismatch : Mismatch} {rest : List Octet}
    (h : (do exactly expected opening; commit inner : Reader α) (opening.toUInt8 :: rest) =
      .error mismatch) : mismatch.committed := by
  have hopening : exactly expected opening (opening.toUInt8 :: rest) = .ok ((), rest) :=
    exactly_eq_ok.mpr rfl
  rw [bind_of_ok hopening] at h
  exact committed_of_commit h

/-- An element that is missing without being committed to is missing right away. -/
lemma Reader.missing_elementOf {element : Reader Element} {mismatch : Mismatch}
    (h : elementOf element input = .error mismatch) (hopen : mismatch.committed = false) :
    mismatch = ⟨.element, input, false⟩ := by
  have hcommitted : ¬ mismatch.committed := by simp [hopen]
  -- All branches but the first commit to their opening octet, and a name fails at its first only.
  cases input with
  | nil =>
    cases h
    rfl
  | cons first rest =>
    simp only [elementOf] at h
    split_ifs at h with halpha hgroup hoption hliteral hnumeric hprose
    · have hname : ruleName (first :: rest) = .error mismatch := map_eq_error.mp h
      have hread : octet .ruleName Octet.isAlpha (first :: rest) = .ok (first, rest) :=
        octet_eq_ok.mpr ⟨rfl, halpha⟩
      rw [ruleName, bind_of_ok hread] at hname
      cases hname
    · subst hgroup
      exact absurd (committed_of_opened (map_eq_error.mp h)) hcommitted
    · subst hoption
      exact absurd (committed_of_opened (map_eq_error.mp h)) hcommitted
    · subst hliteral
      exact absurd (committed_of_opened (map_eq_error.mp h)) hcommitted
    · subst hnumeric
      exact absurd (committed_of_opened (map_eq_error.mp h)) hcommitted
    · subst hprose
      exact absurd (committed_of_opened (map_eq_error.mp h)) hcommitted
    · cases h
      rfl

lemma Reader.missing_elementUpTo {depth : Nat} {mismatch : Mismatch}
    (h : elementUpTo depth input = .error mismatch) (hopen : mismatch.committed = false) :
    mismatch = ⟨.element, input, false⟩ := by
  cases depth with
  | zero =>
    cases h
    rfl
  | succ => exact missing_elementOf h hopen

lemma Reader.elementOf_of_isBreak {element : Reader Element} {first : Octet} {rest : List Octet}
    (h : first.isBreak) :
    elementOf element (first :: rest) = .error ⟨.element, first :: rest, false⟩ := by
  have hbreak : ∀ octet : Octet, octet.isBreak →
      elementOf element (octet :: rest) = .error ⟨.element, octet :: rest, false⟩ :=
    Octet.forall_isBreak.mpr ⟨rfl, rfl⟩
  exact hbreak first h

/-- Readers of elements for one more level of nesting. What is between brackets may be restricted. -/
lemma Simulation.elementOf (hs : Simulation R Past) {R' : List Octet → List Octet → Prop}
    (hs' : Simulation R' Past) (hR : ∀ {rest rest'}, R' rest rest' → R rest rest')
    (hinside : ∀ {first rest first' rest'}, R (first :: rest) (first' :: rest') → R rest rest' →
      R' rest rest') {element element' : Reader Element}
    (helement : Abreast R' Past element element') (h : R input input') :
    Follows R Past (ReportsElement input) (fun value => EndsNumeric Past (value = .numeric ·))
      (Reader.elementOf element input) (Reader.elementOf element' input') := by
  cases input with
  | nil =>
    obtain rfl := hs.nil h
    exact .inl (.error _ false h)
  | cons first rest =>
    -- Line breaks differ between the runs, but begin no element.
    cases hfirst : first.isBreak with
    | true =>
      obtain ⟨first', rest', rfl, hfirst'⟩ := hs.cons_break h hfirst
      rw [elementOf_of_isBreak hfirst, elementOf_of_isBreak hfirst']
      exact .inl (.error _ false h)
    | false =>
      obtain ⟨rest', rfl, hrest⟩ := hs.cons h hfirst
      have hbracketed : ∀ {opening closing : Char} {expected : Expected}
          (make : Alternation → Element),
          Closes R' Past (Reader.exactly expected closing) expected →
          (∀ {inside start reported rest}, Blanks inside start →
            Alternation.IsTentative expected start reported rest →
            Element.IsTentative (opening.toUInt8 :: inside) reported rest) →
          first = opening.toUInt8 →
          Follows R Past (ReportsElement (first :: rest))
            (fun value => EndsNumeric Past (value = .numeric ·))
            ((make <$> bracketed opening closing expected element) (first :: rest))
            ((make <$> bracketed opening closing expected element') (first :: rest')) := by
        intro opening closing expected make hclose htentative hfirst
        subst hfirst
        have hbody := helement.bracketed hs' hclose htentative (hrest.imp_left (hinside h))
        exact (hbody.mono hR).bind_pure hs id fun _ hends => hends.elim
      simp only [Reader.elementOf]
      split_ifs with halpha hgroup hoption hliteral hnumeric hprose
      · exact .inl (hs.map _ (hs.ruleName h))
      · exact hbracketed .group (hs'.closes_exactly (.inl rfl) (.inl rfl)) .group hgroup
      · exact hbracketed .option (hs'.closes_exactly (.inr rfl) (.inr rfl)) .option hoption
      · exact .inl (hs.map _ (hs.delimited _ _ (by decide) (by decide)
          (Octet.forall_isBreak.mpr (by decide)) h))
      · exact (hs.numeric h).bind_pure hs (fun hfalse => hfalse.elim)
          fun _ hends => hends.imp (congrArg Element.numeric)
      · exact .inl (hs.map _ (hs.delimited _ _ (by decide) (by decide)
          (Octet.forall_isBreak.mpr (by decide)) h))
      · exact .inl (.error _ false h)

lemma abreast_elementUpTo {depth depth' : Nat}
    (h : ∀ {input input'}, UpTo R depth depth' input input' →
      Follows (UpTo R depth depth') Past (ReportsElement input)
        (fun value => EndsNumeric Past (value = .numeric ·)) (elementUpTo depth input)
        (elementUpTo depth' input')) :
    Abreast (UpTo R depth depth') Past (elementUpTo depth) (elementUpTo depth') where
  sound := sound_elementUpTo depth
  sound' := sound_elementUpTo depth'
  recedes := recedes_elementUpTo depth
  declines := (faithful_elementUpTo depth).declines
  missing := missing_elementUpTo
  follows := h

lemma Reader.elementUpTo_nil (depth : Nat) :
    elementUpTo depth [] = .error ⟨.element, [], false⟩ := by
  cases depth <;> rfl

theorem Simulation.elementUpTo (hs : Simulation R Past) (depth depth' : Nat) :
    Abreast (UpTo R depth depth') Past (Reader.elementUpTo depth)
      (Reader.elementUpTo depth') := by
  -- Where one of the inputs is empty, both are.
  have hempty : ∀ {depth depth'} {input input' : List Octet}, R input input' →
      input = [] ∨ input' = [] → Follows (UpTo R depth depth') Past (ReportsElement input)
        (fun value => EndsNumeric Past (value = .numeric ·)) (Reader.elementUpTo depth input)
        (Reader.elementUpTo depth' input') := by
    intro depth depth' input input' h hnil
    have hboth : input = [] ∧ input' = [] := by
      cases input with
      | nil => exact ⟨rfl, hs.nil h⟩
      | cons first rest =>
        obtain ⟨first', rest', rfl⟩ := hs.exists_cons h
        simp at hnil
    obtain ⟨rfl, rfl⟩ := hboth
    rw [elementUpTo_nil, elementUpTo_nil]
    exact .inl (.error _ false ⟨h, Nat.zero_le _, Nat.zero_le _⟩)
  induction depth generalizing depth' with
  | zero =>
    refine abreast_elementUpTo fun {input input'} h => hempty h.1 (.inl ?_)
    exact List.length_eq_zero_iff.mp (Nat.le_zero.mp h.2.1)
  | succ depth ih =>
    cases depth' with
    | zero =>
      refine abreast_elementUpTo fun {input input'} h => hempty h.1 (.inr ?_)
      exact List.length_eq_zero_iff.mp (Nat.le_zero.mp h.2.2)
    | succ depth' =>
      -- The inputs inside of brackets are shorter in both runs, so both depths go down.
      refine abreast_elementUpTo fun h => ?_
      refine (hs.upTo _ _).elementOf (hs.upTo depth depth') ?_ ?_ (ih depth') h
      · rintro rest rest' ⟨h, hleft, hright⟩
        exact ⟨h, Nat.le_succ_of_le hleft, Nat.le_succ_of_le hright⟩
      · rintro first rest first' rest' ⟨-, hleft, hright⟩ hrest
        exact ⟨hrest.1, Nat.le_of_succ_le_succ hleft, Nat.le_of_succ_le_succ hright⟩

end AugmentedBnf
