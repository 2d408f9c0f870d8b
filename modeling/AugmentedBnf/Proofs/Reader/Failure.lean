import AugmentedBnf.Proofs.Reader.Locality
import AugmentedBnf.Proofs.Reader.Soundness

/-!
# Where readers fail

A reader reports a mismatch no further into its input than it has reason to: with other octets from
there on, it would have taken what it reads. The octets before the mismatch are the beginning of a
word, which the lemmas here complete, most often with the shortest word there is.

* `Within`: the octets of an input before some place begin a word that a production takes.
* `bind_eq_error`, `many_error_induction` and the like: where the ways to put readers together fail.
* `body_eq_error`: a rule body is broken off where its reader reports a mismatch.
-/

namespace AugmentedBnf

/-- The octets of an input before what is left of it begin a word that a production takes. -/
def Within (derives : List Octet → List Octet → Prop) (input rest : List Octet) : Prop :=
  ∃ word tail, input = word ++ rest ∧ Takes derives (word ++ tail)

section

variable {inner outer : List Octet → List Octet → Prop} {word input rest : List Octet}

lemma Takes.within_self (h : Takes outer word) : Within outer input input :=
  ⟨[], word, rfl, h⟩

lemma Within.of_takes (word : List Octet) {tail : List Octet} (h : Takes outer (word ++ tail)) :
    Within outer (word ++ rest) rest :=
  ⟨word, tail, rfl, h⟩

/-- What breaks off inside of a word breaks off inside of a longer one that has the word in it. -/
lemma Within.wrap (h : Within inner input rest) (first : List Octet)
    (hwrap : ∀ word, Takes inner word → ∃ more, Takes outer (first ++ (word ++ more))) :
    Within outer (first ++ input) rest := by
  obtain ⟨word, tail, rfl, htakes⟩ := h
  obtain ⟨more, hmore⟩ := hwrap _ htakes
  refine ⟨first ++ word, tail ++ more, by rw [List.append_assoc], ?_⟩
  simpa only [List.append_assoc] using hmore

lemma Within.after (h : Within inner input rest) (first : List Octet)
    (hafter : ∀ word, Takes inner word → Takes outer (first ++ word)) :
    Within outer (first ++ input) rest :=
  h.wrap first fun word hword => ⟨[], by simpa only [List.append_nil] using hafter word hword⟩

end

lemma takes_lineEnd_feed : Takes LineEnd ['\n'.toUInt8] :=
  fun rest => .lineBreak (.feed rest)

lemma takes_number_one (radix : Radix) : Takes (radix.Derives 1) ['1'.toUInt8] := by
  intro rest
  cases radix <;> exact @Radix.Derives.intro _ ['1'.toUInt8] rest (List.cons_ne_nil _ _)
    (List.forall_mem_singleton.mpr (by decide)) (by decide)

lemma takes_name_a : Takes (NameDerives "a") ['a'.toUInt8] :=
  fun rest => @NameDerives.intro 'a'.toUInt8 [] rest (by decide) (by simp)

/-- A concatenation breaks off where what follows its first repetition does. -/
lemma Within.concatenation {first : Repetition} {others : Concatenation}
    {start middle input rest : List Octet} (hfirst : first.Derives start middle)
    (hblanks : SomeBlanks middle input) (hothers : Within others.Derives input rest) :
    Within (Concatenation.Derives (first :: others)) start rest := by
  obtain ⟨word, rfl, hword⟩ := hfirst.exists_takes
  obtain ⟨between, rfl, hbetween⟩ := isLocal_someBlanks _ _ hblanks
  rw [← List.append_assoc]
  refine hothers.after _ fun behind hbehind rest => ?_
  simp only [List.append_assoc]
  exact .cons (hword _) (hbetween _) (hbehind rest)

/-- An alternation breaks off where what follows its first branch does. -/
lemma Within.alternation {first : Concatenation} {others : Alternation}
    {start middle behind input rest : List Octet} (hfirst : first.Derives start middle)
    (hslash : Blanks middle ('/'.toUInt8 :: behind)) (hblanks : Blanks behind input)
    (hothers : Within others.Derives input rest) :
    Within (Alternation.Derives (first :: others)) start rest := by
  obtain ⟨word, rfl, hword⟩ := hfirst.exists_takes
  obtain ⟨left, rfl, hleft⟩ := isLocal_blanks _ _ hslash
  obtain ⟨right, rfl, hright⟩ := isLocal_blanks _ _ hblanks
  have hbehind := hothers.after (word ++ (left ++ '/'.toUInt8 :: right)) fun last hlast rest => by
    simp only [List.append_assoc, List.cons_append]
    exact Alternation.Derives.cons (hword _) (hleft _) (hright _) (hlast rest)
  simpa only [List.append_assoc, List.cons_append] using hbehind

lemma takes_blanks_nil : Takes Blanks [] := fun _ => .refl

namespace Reader

variable {α β : Type} {mismatch : Mismatch} {input : List Octet}

/-! ### Ways to put readers together -/

lemma bind_eq_error {reader : Reader α} {next : α → Reader β} :
    (reader >>= next) input = .error mismatch ↔
      reader input = .error mismatch ∨
        ∃ value middle, reader input = .ok (value, middle) ∧
          next value middle = .error mismatch := by
  change (reader input >>= fun result => next result.1 result.2) = _ ↔ _
  simp only [AugmentedBnf.bind_eq_error, Prod.exists]

lemma pure_ne_error {value : α} : (pure value : Reader α) input ≠ .error mismatch := by
  intro h
  cases h

lemma map_eq_error {f : α → β} {reader : Reader α} :
    (f <$> reader) input = .error mismatch ↔ reader input = .error mismatch := by
  simp only [Functor.map, StateT.map, bind, pure]
  cases reader input <;> simp [Except.bind, Except.pure]

lemma octet_eq_error {expected : Expected} {accepts : Octet → Bool}
    (h : octet expected accepts input = .error mismatch) : mismatch.rest = input := by
  cases input with
  | nil =>
    cases h
    rfl
  | cons first others =>
    simp only [octet] at h
    split_ifs at h
    cases h
    rfl

lemma exactly_eq_error {expected : Expected} {char : Char}
    (h : exactly expected char input = .error mismatch) : mismatch.rest = input := by
  obtain h | ⟨_, _, -, h⟩ := bind_eq_error.mp h
  · exact octet_eq_error h
  · exact absurd h pure_ne_error

lemma endOfInput_eq_error (h : endOfInput input = .error mismatch) : mismatch.rest = input := by
  cases input <;> cases h
  rfl

lemma or_eq_error {first second : Reader α} (h : or first second input = .error mismatch) :
    first input = .error mismatch ∨ second input = .error mismatch := by
  simp only [or] at h
  cases hfirst : first input with
  | ok => simp [hfirst] at h
  | error one =>
    cases hsecond : second input with
    | ok =>
      simp only [hfirst, hsecond] at h
      split_ifs at h
      exact Or.inl h
    | error other =>
      simp only [hfirst, hsecond, Mismatch.furthest] at h
      split_ifs at h
      · exact Or.inl h
      · exact Or.inr h
      · exact Or.inr h
      · exact Or.inl h

lemma optional_eq_error {reader : Reader α} (h : optional reader input = .error mismatch) :
    reader input = .error mismatch ∧ mismatch.committed := by
  simp only [optional] at h
  cases hreader : reader input with
  | ok => simp [hreader] at h
  | error other =>
    simp only [hreader] at h
    split_ifs at h with hcommitted
    cases h
    exact ⟨rfl, hcommitted⟩

lemma commit_eq_error {reader : Reader α} (h : commit reader input = .error mismatch) :
    ∃ other, reader input = .error other ∧ other.rest = mismatch.rest := by
  simp only [commit] at h
  cases hreader : reader input with
  | ok => simp [hreader] at h
  | error other =>
    simp only [hreader, Except.error.injEq] at h
    exact ⟨other, rfl, by rw [← h]⟩

/-- Behind an octet that tells what is read, the reader of the rest is committed. -/
lemma opened_eq_error {expected : Expected} {opening : Char} {inner : Reader α}
    (h : (do exactly expected opening; commit inner : Reader α) input = .error mismatch) :
    mismatch.rest = input ∨ ∃ inside other, input = opening.toUInt8 :: inside ∧
      inner inside = .error other ∧ other.rest = mismatch.rest := by
  obtain h | ⟨_, inside, hopening, h⟩ := bind_eq_error.mp h
  · exact Or.inl (exactly_eq_error h)
  · obtain ⟨other, hinside, hrest⟩ := commit_eq_error h
    exact Or.inr ⟨inside, other, exactly_eq_ok.mp hopening, hinside, hrest⟩

lemma label_eq_error {expected : Expected} {reader : Reader α}
    (h : label expected reader input = .error mismatch) :
    mismatch.rest = input ∨ reader input = .error mismatch := by
  simp only [label] at h
  cases hreader : reader input with
  | ok => simp [hreader] at h
  | error other =>
    simp only [hreader] at h
    split_ifs at h
    · cases h
      exact Or.inl rfl
    · exact Or.inr h

lemma StaysOpen.not_committed {reader : Reader α} (hreader : reader.StaysOpen)
    (h : reader input = .error mismatch) : ¬ mismatch.committed := by
  obtain ⟨other, hother, hopen⟩ | ⟨_, hok⟩ := hreader input
  · rw [h] at hother
    cases hother
    exact Bool.not_eq_true _ ▸ hopen
  · rw [h] at hok
    contradiction

lemma StaysOpen.optional_ne_error {reader : Reader α} (hreader : reader.StaysOpen) :
    optional reader input ≠ .error mismatch := by
  intro h
  obtain ⟨h, hcommitted⟩ := optional_eq_error h
  exact hreader.not_committed h hcommitted

/-- What holds where a turn fails and leaves no other way open, and before each turn if it holds
behind it. -/
lemma many_error_induction {reader : Reader α} (hreader : reader.Shrinks)
    {motive : List Octet → Prop}
    (hfail : ∀ {input}, reader input = .error mismatch → mismatch.committed → motive input)
    (hturn : ∀ {input middle value}, reader input = .ok (value, middle) → motive middle →
      motive input)
    (h : many reader input = .error mismatch) : motive input := by
  -- On the length of the input: a turn that succeeds leaves less of it to the turns behind.
  induction hlength : input.length using Nat.strong_induction_on generalizing input with
  | _ length ih =>
    cases hread : reader input with
    | ok result =>
      obtain ⟨value, middle⟩ := result
      have hmiddle := hreader _ _ _ hread
      rw [many_of_ok hreader hread] at h
      cases hmany : many reader middle with
      | ok => simp [hmany, Except.map] at h
      | error other =>
        simp only [hmany, Except.map, Except.error.injEq] at h
        exact hturn hread (ih _ (hlength ▸ hmiddle) (h ▸ hmany) rfl)
    | error other =>
      simp only [many, manyUpTo, hread] at h
      split_ifs at h with hcommitted
      cases h
      exact hfail hread hcommitted

lemma StaysOpen.many_ne_error {reader : Reader α} (hopen : reader.StaysOpen)
    (hreader : reader.Shrinks) : many reader input ≠ .error mismatch := by
  intro h
  exact many_error_induction (motive := fun _ => False) hreader
    (fun herror hcommitted => hopen.not_committed herror hcommitted) (fun _ hfalse => hfalse) h

/-! ### Lexical readers -/

lemma lineBreak_eq_error (h : lineBreak input = .error mismatch) :
    Within LineBreak input mismatch.rest := by
  have hfeed : Takes LineBreak ['\n'.toUInt8] := fun rest => .feed rest
  have hboth : Takes LineBreak ['\r'.toUInt8, '\n'.toUInt8] := fun rest => .returnAndFeed rest
  obtain h | h := or_eq_error h
  · obtain h | ⟨_, middle, hreturn, h⟩ := bind_eq_error.mp h
    · exact exactly_eq_error h ▸ hfeed.within_self
    · obtain rfl := exactly_eq_ok.mp hreturn
      obtain rfl := exactly_eq_error h
      exact Within.of_takes ['\r'.toUInt8] hboth
  · exact exactly_eq_error h ▸ hfeed.within_self

lemma comment_eq_error (h : comment input = .error mismatch) :
    Within LineEnd input mismatch.rest := by
  have hcomment : ∀ {text middle rest}, (∀ octet ∈ text, Octet.isComment octet) →
      Within LineBreak middle rest → Within LineEnd (';'.toUInt8 :: text ++ middle) rest :=
    fun htext hbreak => hbreak.after _ fun _ hword => Takes.comment htext hword
  have hfeed : Takes LineBreak ['\n'.toUInt8] := fun rest => .feed rest
  simp only [comment, bind_eq_error] at h
  obtain h | ⟨_, _, hsemicolon, h | ⟨text, middle, htext, h⟩⟩ := h
  · exact exactly_eq_error h ▸ takes_lineEnd_feed.within_self
  · cases h
  · obtain rfl := exactly_eq_ok.mp hsemicolon
    obtain ⟨rfl, htext, -⟩ := takeWhile_eq_ok.mp htext
    obtain h | h := or_eq_error h
    · exact hcomment htext (lineBreak_eq_error h)
    · exact hcomment htext (endOfInput_eq_error h ▸ hfeed.within_self)

lemma commentOrLineBreak_eq_error (h : commentOrLineBreak input = .error mismatch) :
    Within LineEnd input mismatch.rest := by
  obtain h | h := label_eq_error h
  · exact h ▸ takes_lineEnd_feed.within_self
  · obtain h | h := or_eq_error h
    · exact comment_eq_error h
    · exact (lineBreak_eq_error h).after [] fun _ hword rest => .lineBreak (hword rest)

/-- White space is optional wherever it may stand, so its reader has nothing to miss. -/
lemma blanks_ne_error : blanks input ≠ .error mismatch := by
  intro h
  obtain h | ⟨_, _, -, h⟩ := bind_eq_error.mp h
  · exact staysOpen_blank.many_ne_error shrinks_blank h
  · exact pure_ne_error h

lemma many1_blank_eq_error (h : many1 blank input = .error mismatch) : ¬ mismatch.committed := by
  simp only [many1, bind_eq_error] at h
  obtain h | ⟨_, _, -, h | ⟨_, _, -, h⟩⟩ := h
  · exact staysOpen_blank.not_committed h
  · exact absurd h (staysOpen_blank.many_ne_error shrinks_blank)
  · exact absurd h pure_ne_error

lemma ruleName_eq_error (h : ruleName input = .error mismatch) : mismatch.rest = input := by
  simp only [ruleName, bind_eq_error] at h
  obtain h | ⟨_, _, -, h | ⟨_, _, -, h⟩⟩ := h
  · exact octet_eq_error h
  · cases h
  · exact absurd h pure_ne_error

lemma number_eq_error {radix : Radix} (h : number radix input = .error mismatch) :
    mismatch.rest = input := by
  simp only [number] at h
  split at h
  · cases h
    rfl
  · split_ifs at h
    cases h
    rfl

lemma bounds_eq_error (h : bounds input = .error mismatch) :
    ∃ value : Repeat, Within value.Derives input mismatch.rest := by
  have hcount : Takes (Repeat.count 1).Derives ['1'.toUInt8] :=
    fun rest => .count (takes_number_one .decimal rest)
  simp only [bounds, AugmentedBnf.bind_eq_error, Prod.exists] at h
  obtain h | ⟨min, middle, hmin, h | ⟨star, behind, hstar, h⟩⟩ := h
  · obtain rfl := number_eq_error (optional_eq_error h).1
    exact ⟨_, hcount.within_self⟩
  · exact absurd h (staysOpen_exactly _ _).optional_ne_error
  · split at h
    · cases h
    · -- Only a maximum that is too large fails behind the star, and it may be left out.
      obtain ⟨_, hstar, -⟩ | ⟨-, heq, -⟩ := optional_eq_ok.mp hstar
      · obtain rfl := exactly_eq_ok.mp hstar
        obtain h | ⟨_, -, h⟩ := AugmentedBnf.bind_eq_error.mp h
        · obtain rfl := number_eq_error (optional_eq_error h).1
          obtain ⟨word, rfl, hword⟩ := isLocal_bound _ _ _ (bound_eq_ok.mp hmin).1
          refine ⟨.between (min.getD 0) none, word ++ ['*'.toUInt8], [], by simp, fun rest => ?_⟩
          simp only [List.append_nil, List.append_assoc]
          exact .between (hword _) (.absent rest)
        · cases h
      · cases heq
    · cases h
      exact ⟨_, hcount.within_self⟩

lemma radix_eq_error (h : radix input = .error mismatch) : mismatch.rest = input := by
  cases input with
  | nil =>
    cases h
    rfl
  | cons first others =>
    simp only [radix] at h
    split at h
    · cases h
    · cases h
      rfl

/-- A number with an octet that announces it fails for good only behind this octet. -/
lemma numberBehind_eq_error {expected : Expected} {char : Char} {radix : Radix}
    (h : (do exactly expected char; number radix : Reader UInt32) input = .error mismatch)
    (hcommitted : mismatch.committed) : input = char.toUInt8 :: mismatch.rest := by
  obtain h | ⟨_, _, hchar, h⟩ := bind_eq_error.mp h
  · exact absurd hcommitted ((staysOpen_exactly _ _).not_committed h)
  · rw [exactly_eq_ok.mp hchar, number_eq_error h]

lemma members_eq_error {radix : Radix}
    (h : many (do exactly .sequenceDot '.'; number radix) input = .error mismatch) :
    ∃ numbers, Within (radix.DerivesMembers numbers) input mismatch.rest := by
  refine many_error_induction
    (motive := fun input => ∃ numbers, Within (radix.DerivesMembers numbers) input mismatch.rest)
    (shrinks_dottedNumber radix) ?_ ?_ h
  · intro input h hcommitted
    have hone : Takes (radix.DerivesMembers [1]) ['.'.toUInt8, '1'.toUInt8] :=
      fun rest => .cons (takes_number_one radix _) (.nil rest)
    rw [numberBehind_eq_error h hcommitted]
    exact ⟨[1], Within.of_takes ['.'.toUInt8] hone⟩
  · intro input middle value hvalue hbehind
    obtain ⟨numbers, hbehind⟩ := hbehind
    obtain ⟨start, rfl, hnumber, -⟩ := dottedNumber_eq_ok.mp hvalue
    obtain ⟨word, rfl, hword⟩ := isLocal_number _ _ _ _ hnumber
    refine ⟨value :: numbers, hbehind.after ('.'.toUInt8 :: word) fun others hothers => ?_⟩
    intro rest
    rw [List.append_assoc]
    exact .cons (hword _) (hothers rest)

lemma numeric_eq_error (h : numeric input = .error mismatch) :
    ∃ value : Numeric, Within value.Derives input mismatch.rest := by
  have hnone : ∀ radix : Radix, Takes (radix.DerivesMembers []) [] := fun _ => .nil
  have hsequence : ∀ radix : Radix, Takes (Numeric.Derives ⟨radix, false, [1]⟩)
      ['%'.toUInt8, radix.letter, '1'.toUInt8] := fun radix =>
    Takes.sequence (by cases radix <;> decide) (takes_number_one radix) (hnone radix)
  obtain rfl | ⟨inside, other, rfl, hinside, hrest⟩ := opened_eq_error h
  · exact ⟨_, (hsequence .decimal).within_self⟩
  rw [← hrest]
  simp only [bind_eq_error] at hinside
  -- Behind the percent sign, the step that fails and those behind it are made up for by `d1` or `1`.
  obtain hradix | ⟨base, start, hradix, hinside⟩ := hinside
  · obtain rfl := radix_eq_error hradix
    exact ⟨_, Within.of_takes ['%'.toUInt8] (hsequence .decimal)⟩
  obtain ⟨letter, rfl, hletter⟩ := radix_eq_ok.mp hradix
  obtain hfirst | ⟨first, middle, hfirst, hinside⟩ := hinside
  · obtain rfl := number_eq_error hfirst
    have hone := Takes.sequence hletter (takes_number_one base) (hnone base)
    exact ⟨_, Within.of_takes ['%'.toUInt8, letter] hone⟩
  obtain ⟨word, rfl, hword⟩ := isLocal_number _ _ _ _ (number_eq_ok.mp hfirst).1
  obtain hothers | ⟨others, stop, hothers, hinside⟩ := hinside
  · obtain ⟨others, hothers⟩ := members_eq_error hothers
    exact ⟨_, hothers.after ('%'.toUInt8 :: letter :: word) fun _ =>
      Takes.sequence hletter hword⟩
  have hmembers := derivesMembers_of_many hothers
  split_ifs at hinside with hnil
  · cases hinside
  rw [not_ne_iff.mp hnil] at hmembers
  cases hmembers
  obtain hupper | ⟨_, _, -, hinside⟩ := bind_eq_error.mp hinside
  · obtain ⟨hupper, hcommitted⟩ := optional_eq_error hupper
    rw [numberBehind_eq_error hupper hcommitted]
    refine ⟨⟨base, true, [first, 1]⟩, '%'.toUInt8 :: letter :: (word ++ ['-'.toUInt8]),
      ['1'.toUInt8], by simp, ?_⟩
    simpa using Takes.range hletter hword (takes_number_one base)
  · split at hinside <;> cases hinside

/-! ### Rule bodies -/

/-- The reader takes nothing but elements, and where it fails, other octets would continue one. -/
structure Prompt (element : Reader Element) : Prop where
  sound : element.Sound
  within : ∀ {input mismatch}, element input = .error mismatch →
    ∃ value : Element, Within value.Derives input mismatch.rest

variable {element : Reader Element}

lemma Prompt.repetitionOf (helement : element.Prompt)
    (h : repetitionOf element input = .error mismatch) :
    ∃ value : Repetition, Within value.Derives input mismatch.rest := by
  simp only [Reader.repetitionOf, bind_eq_error, pure_ne_error, and_false, exists_false,
    or_false] at h
  obtain h | ⟨_, middle, hbounds, h⟩ := h
  · -- The bounds are broken off and completed, and an element has to be put behind them.
    obtain ⟨bounds, hbounds⟩ := bounds_eq_error (optional_eq_error h).1
    refine ⟨⟨some bounds, .reference "a"⟩, hbounds.wrap [] fun word hword => ⟨['a'.toUInt8], ?_⟩⟩
    intro rest
    rw [List.nil_append, List.append_assoc]
    exact .repeated (hword _) (.reference (takes_name_a rest))
  · obtain ⟨value, hvalue⟩ := helement.within h
    obtain ⟨bounds, hsome, rfl⟩ | ⟨-, rfl, rfl⟩ := optional_eq_ok.mp hbounds
    · obtain ⟨word, rfl, hword⟩ := isLocal_bounds _ _ _ (derives_of_bounds hsome)
      refine ⟨⟨some bounds, value⟩, hvalue.after word fun behind hbehind rest => ?_⟩
      rw [List.append_assoc]
      exact .repeated (hword _) (hbehind rest)
    · exact ⟨⟨none, value⟩, hvalue.after [] fun _ hword rest => .once (hword rest)⟩

lemma Prompt.many_nextRepetition (helement : element.Prompt)
    (h : many (nextRepetition element) input = .error mismatch) :
    ∃ start, SomeBlanks input start ∧
      ∃ value : Concatenation, Within value.Derives start mismatch.rest := by
  refine many_error_induction (motive := fun input => ∃ start, SomeBlanks input start ∧
    ∃ value : Concatenation, Within value.Derives start mismatch.rest)
    helement.sound.shrinks_nextRepetition ?_ ?_ h
  · intro input h hcommitted
    obtain h | ⟨_, start, hmany, h⟩ := bind_eq_error.mp h
    · -- Blanks may be missing, but then the loop ends and does not fail.
      exact absurd hcommitted (many1_blank_eq_error h)
    · obtain ⟨middle, hblank, hsettles⟩ := exists_many1_blank.mp ⟨_, hmany⟩
      obtain ⟨value, hvalue⟩ := helement.repetitionOf h
      exact ⟨start, .head' hblank hsettles.1, [value],
        hvalue.after [] fun _ hword rest => .single (hword rest)⟩
  · intro input middle value hvalue hothers
    obtain ⟨start, hblanks, hvalue⟩ := helement.sound.nextRepetition hvalue
    obtain ⟨next, hnext, others, hothers⟩ := hothers
    exact ⟨start, hblanks, value :: others, hothers.concatenation hvalue hnext⟩

lemma Prompt.concatenationOf (helement : element.Prompt)
    (h : concatenationOf element input = .error mismatch) :
    ∃ value : Concatenation, Within value.Derives input mismatch.rest := by
  simp only [concatenationOf_eq, bind_eq_error, pure_ne_error, and_false, exists_false, or_false] at h
  obtain h | ⟨first, _, hfirst, h⟩ := h
  · obtain ⟨value, hvalue⟩ := helement.repetitionOf h
    exact ⟨[value], hvalue.after [] fun _ hword rest => .single (hword rest)⟩
  · obtain ⟨_, hblanks, others, hothers⟩ := helement.many_nextRepetition h
    exact ⟨first :: others, hothers.concatenation (helement.sound.repetitionOf hfirst) hblanks⟩

lemma Prompt.nextBranch (helement : element.Prompt)
    (h : nextBranch element input = .error mismatch) (hcommitted : mismatch.committed) :
    ∃ middle start, Blanks input ('/'.toUInt8 :: middle) ∧ Blanks middle start ∧
      ∃ value : Concatenation, Within value.Derives start mismatch.rest := by
  simp only [Reader.nextBranch, bind_eq_error, blanks_ne_error, false_or] at h
  obtain ⟨_, _, hstop, h | ⟨_, middle, hslash, h⟩⟩ := h
  · -- A branch is committed to only behind its slash.
    exact absurd hcommitted ((staysOpen_exactly _ _).not_committed h)
  · obtain rfl := exactly_eq_ok.mp hslash
    obtain ⟨other, hbranch, hrest⟩ := commit_eq_error h
    simp only [bind_eq_error, blanks_ne_error, false_or] at hbranch
    obtain ⟨_, start, hstart, hbranch⟩ := hbranch
    exact ⟨middle, start, (blanks_eq_ok.mp hstop).1, (blanks_eq_ok.mp hstart).1,
      hrest ▸ helement.concatenationOf hbranch⟩

lemma Prompt.many_nextBranch (helement : element.Prompt)
    (h : many (Reader.nextBranch element) input = .error mismatch) :
    ∃ middle start, Blanks input ('/'.toUInt8 :: middle) ∧ Blanks middle start ∧
      ∃ value : Alternation, Within value.Derives start mismatch.rest := by
  refine many_error_induction (motive := fun input => ∃ middle start,
    Blanks input ('/'.toUInt8 :: middle) ∧ Blanks middle start ∧
      ∃ value : Alternation, Within value.Derives start mismatch.rest)
    helement.sound.shrinks_nextBranch ?_ ?_ h
  · intro input h hcommitted
    obtain ⟨middle, start, hslash, hstart, value, hvalue⟩ := helement.nextBranch h hcommitted
    exact ⟨middle, start, hslash, hstart, [value],
      hvalue.after [] fun _ hword rest => .single (hword rest)⟩
  · intro input behind value hvalue hothers
    obtain ⟨middle, start, hslash, hstart, hvalue⟩ := nextBranch_eq_ok.mp hvalue
    obtain ⟨_, _, hnext, hblanks, others, hothers⟩ := hothers
    exact ⟨middle, start, hslash.1, hstart.1, value :: others,
      hothers.alternation (helement.sound.concatenationOf hvalue) hnext hblanks⟩

lemma Prompt.alternationOf (helement : element.Prompt)
    (h : alternationOf element input = .error mismatch) :
    ∃ value : Alternation, Within value.Derives input mismatch.rest := by
  simp only [alternationOf_eq, bind_eq_error, pure_ne_error, and_false, exists_false, or_false] at h
  obtain h | ⟨first, _, hfirst, h⟩ := h
  · obtain ⟨value, hvalue⟩ := helement.concatenationOf h
    exact ⟨[value], hvalue.after [] fun _ hword rest => .single (hword rest)⟩
  · obtain ⟨_, _, hslash, hblanks, others, hothers⟩ := helement.many_nextBranch h
    exact ⟨first :: others,
      hothers.alternation (helement.sound.concatenationOf hfirst) hslash hblanks⟩

lemma delimited_eq_error {opening closing : Char} {start stop : Expected} {accepts : Octet → Bool}
    (h : delimited opening closing start stop accepts input = .error mismatch) :
    mismatch.rest = input ∨ ∃ octets, input = opening.toUInt8 :: (octets ++ mismatch.rest) ∧
      ∀ octet ∈ octets, accepts octet := by
  obtain h | ⟨inside, other, rfl, hinside, hrest⟩ := opened_eq_error h
  · exact Or.inl h
  · simp only [bind_eq_error, pure_ne_error, and_false, exists_false, or_false] at hinside
    obtain hrun | ⟨octets, _, hrun, hclosing⟩ := hinside
    · cases hrun
    · obtain ⟨rfl, hoctets, -⟩ := takeWhile_eq_ok.mp hrun
      exact Or.inr ⟨octets, by rw [← hrest, exactly_eq_error hclosing], hoctets⟩

lemma within_element : ∃ value : Element, Within value.Derives input input :=
  ⟨.reference "a", Takes.within_self fun rest => .reference (takes_name_a rest)⟩

lemma Prompt.bracketed (helement : element.Prompt) {opening closing : Char} {expected : Expected}
    {make : Alternation → Element}
    (hmake : ∀ {body inside start stop rest}, Blanks inside start → body.Derives start stop →
      Blanks stop (closing.toUInt8 :: rest) → (make body).Derives (opening.toUInt8 :: inside) rest)
    (h : bracketed opening closing expected element input = .error mismatch) :
    ∃ value : Element, Within value.Derives input mismatch.rest := by
  obtain h | ⟨inside, other, rfl, hinside, hrest⟩ := opened_eq_error h
  · exact h ▸ within_element
  rw [← hrest]
  simp only [bind_eq_error, blanks_ne_error, pure_ne_error, and_false, exists_false, or_false,
    false_or] at hinside
  -- The body is broken off inside, or it is whole and the closing bracket is missing.
  obtain ⟨_, start, hstart, hbody | ⟨body, stop, hbody, _, last, hstop, hclosing⟩⟩ := hinside
  all_goals obtain ⟨before, rfl, hbefore⟩ := isLocal_blanks _ _ (blanks_eq_ok.mp hstart).1
  · obtain ⟨body, hbody⟩ := helement.alternationOf hbody
    exact ⟨make body, hbody.wrap (opening.toUInt8 :: before) fun word hword =>
      ⟨[closing.toUInt8], Takes.bracketed hmake hbefore hword takes_blanks_nil⟩⟩
  · obtain ⟨word, rfl, hword⟩ := (helement.sound.alternationOf hbody).exists_takes
    obtain ⟨behind, rfl, hbehind⟩ := isLocal_blanks _ _ (blanks_eq_ok.mp hstop).1
    rw [exactly_eq_error hclosing]
    refine ⟨make body, opening.toUInt8 :: (before ++ (word ++ behind)), [closing.toUInt8],
      by simp, ?_⟩
    simpa using Takes.bracketed hmake hbefore hword hbehind

lemma Prompt.within_elementOf (helement : element.Prompt)
    (h : elementOf element input = .error mismatch) :
    ∃ value : Element, Within value.Derives input mismatch.rest := by
  cases input with
  | nil =>
    cases h
    exact within_element
  | cons first others =>
    simp only [Reader.elementOf] at h
    -- Each kind of element has its branch, and what begins no element is behind them.
    split_ifs at h
    · exact ruleName_eq_error (map_eq_error.mp h) ▸ within_element
    · exact helement.bracketed .group (map_eq_error.mp h)
    · exact helement.bracketed .option (map_eq_error.mp h)
    · obtain hrest | ⟨octets, heq, hoctets⟩ := delimited_eq_error (map_eq_error.mp h)
      · exact hrest ▸ within_element
      · refine ⟨.literal octets, '"'.toUInt8 :: octets, ['"'.toUInt8], heq, fun rest => ?_⟩
        simp only [List.cons_append, List.append_assoc, List.nil_append]
        exact .literal rest hoctets
    · obtain ⟨value, hvalue⟩ := numeric_eq_error (map_eq_error.mp h)
      exact ⟨.numeric value, hvalue.after [] fun _ hword rest => .numeric (hword rest)⟩
    · obtain hrest | ⟨octets, heq, hoctets⟩ := delimited_eq_error (map_eq_error.mp h)
      · exact hrest ▸ within_element
      · refine ⟨.prose octets, '<'.toUInt8 :: octets, ['>'.toUInt8], heq, fun rest => ?_⟩
        simp only [List.cons_append, List.append_assoc, List.nil_append]
        exact .prose rest hoctets
    · cases h
      exact within_element

lemma prompt_elementUpTo (depth : Nat) : (elementUpTo depth).Prompt := by
  induction depth with
  | zero =>
    refine ⟨sound_elementUpTo 0, fun h => ?_⟩
    cases h
    exact within_element
  | succ depth ih => exact ⟨sound_elementUpTo (depth + 1), ih.within_elementOf⟩

lemma body_eq_error (h : body input = .error mismatch) :
    ∃ value : Alternation, Within value.Derives input mismatch.rest := by
  simp only [body, bind_eq_error, blanks_ne_error, pure_ne_error, and_false, exists_false,
    or_false] at h
  exact (prompt_elementUpTo input.length).alternationOf h

end Reader

end AugmentedBnf
