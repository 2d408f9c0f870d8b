import Mathlib.Data.List.TakeWhile
import AugmentedBnf.Proofs.Outcome

/-!
# What readers take and where they decline

A reader declines an input when it fails there and leaves other ways open. The lemmas here say for
each way to put readers together when the result takes something and when it declines, so that no
later proof looks at mismatches or at the bound on the turns of a repetition.
-/

namespace AugmentedBnf

/-- No octet of a class is next. -/
def Bars (accepts : Octet → Bool) (rest : List Octet) : Prop :=
  ∀ octet ∈ rest.head?, accepts octet = false

lemma bars_nil {accepts : Octet → Bool} : Bars accepts [] := by
  simp [Bars]

lemma bars_cons {accepts : Octet → Bool} {first : Octet} {others : List Octet}
    (h : accepts first = false) : Bars accepts (first :: others) := by
  simpa [Bars] using h

namespace Reader

variable {α β : Type}

/-- A failure that leaves other ways open. -/
def Declines (reader : Reader α) (input : List Octet) : Prop :=
  ∃ mismatch, reader input = .error mismatch ∧ mismatch.committed = false

def Shrinks (reader : Reader α) : Prop :=
  ∀ input value rest, reader input = .ok (value, rest) → rest.length < input.length

def StaysOpen (reader : Reader α) : Prop :=
  ∀ input, reader.Declines input ∨ ∃ result, reader input = .ok result

lemma StaysOpen.declines_iff {reader : Reader α} (hreader : reader.StaysOpen)
    {input : List Octet} :
    reader.Declines input ↔ ∀ value rest, reader input ≠ .ok (value, rest) := by
  constructor
  · intro h value rest hok
    obtain ⟨mismatch, hmismatch, -⟩ := h
    rw [hmismatch] at hok
    contradiction
  · intro h
    obtain hdeclines | ⟨⟨value, rest⟩, hok⟩ := hreader input
    · exact hdeclines
    · exact absurd hok (h value rest)

lemma pure_eq_ok {value : α} {input : List Octet} {result : α × List Octet} :
    (pure value : Reader α) input = .ok result ↔ (value, input) = result := by
  change (Except.ok (value, input) : Except Mismatch _) = .ok result ↔ _
  rw [Except.ok.injEq]

lemma pure_not_declines {value : α} {input : List Octet} :
    ¬ (pure value : Reader α).Declines input := by
  intro h
  obtain ⟨mismatch, hmismatch, -⟩ := h
  cases hmismatch

lemma bind_eq_ok {reader : Reader α} {next : α → Reader β} {input : List Octet}
    {result : β × List Octet} :
    (reader >>= next) input = .ok result ↔
      ∃ value middle, reader input = .ok (value, middle) ∧ next value middle = .ok result := by
  simp only [bind, StateT.bind]
  cases reader input with
  | error => simp [Except.bind]
  | ok middle =>
    obtain ⟨value, middle⟩ := middle
    simp [Except.bind, and_assoc]

lemma map_eq_ok {f : α → β} {reader : Reader α} {input rest : List Octet} {result : β} :
    (f <$> reader) input = .ok (result, rest) ↔
      ∃ value, reader input = .ok (value, rest) ∧ f value = result := by
  simp only [Functor.map, StateT.map, bind, pure]
  cases reader input with
  | error => simp [Except.bind]
  | ok middle =>
    obtain ⟨value, middle⟩ := middle
    simp only [Except.bind, Except.pure, Except.ok.injEq, Prod.mk.injEq]
    constructor
    · intro h
      obtain ⟨rfl, rfl⟩ := h
      exact ⟨value, ⟨rfl, rfl⟩, rfl⟩
    · intro h
      obtain ⟨_, ⟨rfl, rfl⟩, rfl⟩ := h
      exact ⟨rfl, rfl⟩

lemma bind_declines {reader : Reader α} {next : α → Reader β} {input : List Octet} :
    (reader >>= next).Declines input ↔
      reader.Declines input ∨
        ∃ value middle, reader input = .ok (value, middle) ∧ (next value).Declines middle := by
  simp only [Declines, bind, StateT.bind]
  cases reader input with
  | error => simp [Except.bind]
  | ok middle =>
    obtain ⟨value, middle⟩ := middle
    simp [Except.bind, and_assoc]

lemma StaysOpen.bind {reader : Reader α} {next : α → Reader β} (hreader : reader.StaysOpen)
    (hnext : ∀ value, (next value).StaysOpen) : (reader >>= next).StaysOpen := by
  intro input
  obtain hdeclines | ⟨⟨value, middle⟩, hok⟩ := hreader input
  · exact Or.inl (bind_declines.mpr (Or.inl hdeclines))
  · obtain hdeclines | ⟨result, hresult⟩ := hnext value middle
    · exact Or.inl (bind_declines.mpr (Or.inr ⟨value, middle, hok, hdeclines⟩))
    · exact Or.inr ⟨result, bind_eq_ok.mpr ⟨value, middle, hok, hresult⟩⟩

lemma staysOpen_pure (value : α) : (pure value : Reader α).StaysOpen :=
  fun input => Or.inr ⟨(value, input), rfl⟩

lemma octet_eq_ok {expected : Expected} {accepts : Octet → Bool} {input rest : List Octet}
    {octet : Octet} :
    Reader.octet expected accepts input = .ok (octet, rest) ↔
      input = octet :: rest ∧ accepts octet := by
  cases input with
  | nil => simp [Reader.octet]
  | cons first others =>
    simp only [Reader.octet]
    constructor
    · intro h
      split_ifs at h with haccepts
      cases h
      exact ⟨rfl, haccepts⟩
    · intro h
      obtain ⟨heq, haccepts⟩ := h
      cases heq
      rw [if_pos haccepts]

lemma octet_declines {expected : Expected} {accepts : Octet → Bool} {input : List Octet} :
    (Reader.octet expected accepts).Declines input ↔ Bars accepts input := by
  cases input with
  | nil => simp [Reader.octet, Declines, Bars]
  | cons first others =>
    by_cases h : accepts first = true
    · simp [Reader.octet, Declines, Bars, h]
    · simp [Reader.octet, Declines, Bars, h]

lemma staysOpen_octet (expected : Expected) (accepts : Octet → Bool) :
    (Reader.octet expected accepts).StaysOpen := by
  intro input
  by_cases h : (Reader.octet expected accepts).Declines input
  · exact Or.inl h
  · simp only [octet_declines, Bars, not_forall, Bool.not_eq_false] at h
    obtain ⟨first, hfirst, haccepts⟩ := h
    obtain ⟨rest, rfl⟩ := List.head?_eq_some_iff.mp hfirst
    exact Or.inr ⟨(first, rest), octet_eq_ok.mpr ⟨rfl, haccepts⟩⟩

lemma exactly_eq_ok {expected : Expected} {char : Char} {input rest : List Octet} {value : Unit} :
    exactly expected char input = .ok (value, rest) ↔ input = char.toUInt8 :: rest := by
  simp only [exactly, bind_eq_ok, octet_eq_ok, pure_eq_ok]
  simp

lemma exactly_declines {expected : Expected} {char : Char} {input : List Octet} :
    (exactly expected char).Declines input ↔ Bars (· == char.toUInt8) input := by
  simp only [exactly, bind_declines, octet_declines, pure_not_declines, and_false, exists_false,
    or_false]

lemma staysOpen_exactly (expected : Expected) (char : Char) :
    (exactly expected char).StaysOpen :=
  (staysOpen_octet expected _).bind fun _ => staysOpen_pure ()

lemma endOfInput_eq_ok {input rest : List Octet} {value : Unit} :
    endOfInput input = .ok (value, rest) ↔ input = [] ∧ rest = [] := by
  cases input with
  | nil => simp [endOfInput, eq_comm]
  | cons => simp [endOfInput]

lemma endOfInput_declines {input : List Octet} : endOfInput.Declines input ↔ input ≠ [] := by
  cases input with
  | nil => simp [endOfInput, Declines]
  | cons => simp [endOfInput, Declines]

lemma staysOpen_endOfInput : endOfInput.StaysOpen := by
  intro input
  cases input with
  | nil => exact Or.inr ⟨((), []), rfl⟩
  | cons first rest => exact Or.inl (endOfInput_declines.mpr (List.cons_ne_nil first rest))

lemma takeWhile_eq_ok {accepts : Octet → Bool} {input run rest : List Octet} :
    takeWhile accepts input = .ok (run, rest) ↔
      input = run ++ rest ∧ (∀ octet ∈ run, accepts octet) ∧ Bars accepts rest := by
  simp only [takeWhile, Except.ok.injEq, Prod.mk.injEq, Bars]
  constructor
  · intro h
    obtain ⟨rfl, rfl⟩ := h
    refine ⟨List.takeWhile_append_dropWhile.symm, fun octet h => ?_, fun octet h => ?_⟩
    · exact List.mem_takeWhile_imp h
    · have hdrop := List.head?_dropWhile_not accepts input
      rw [h] at hdrop
      exact hdrop
  · intro h
    obtain ⟨rfl, hrun, hrest⟩ := h
    rw [List.takeWhile_append_of_pos hrun, List.dropWhile_append_of_pos hrun]
    cases rest with
    | nil => simp
    | cons first others => simp [hrest first rfl]

lemma staysOpen_takeWhile (accepts : Octet → Bool) : (takeWhile accepts).StaysOpen :=
  fun _ => Or.inr ⟨_, rfl⟩

/-! ### Choice -/

lemma or_eq_ok {first second : Reader α} {input : List Octet} {result : α × List Octet} :
    or first second input = .ok result ↔
      first input = .ok result ∨ first.Declines input ∧ second input = .ok result := by
  simp only [or, Declines]
  cases first input with
  | ok => simp
  | error mismatch =>
    cases hcommitted : mismatch.committed with
    | true => simp [hcommitted]
    | false =>
      cases second input with
      | ok => simp [hcommitted]
      | error other => simp only [hcommitted]; cases other.committed <;> simp

lemma or_declines {first second : Reader α} {input : List Octet} :
    (or first second).Declines input ↔ first.Declines input ∧ second.Declines input := by
  simp only [or, Declines]
  cases first input with
  | ok => simp
  | error mismatch =>
    cases hcommitted : mismatch.committed with
    | true => simp [hcommitted]
    | false =>
      cases second input with
      | ok => simp [hcommitted]
      | error other =>
        cases hother : other.committed with
        | true => simp [hcommitted, hother]
        | false =>
          -- Both decline, and which mismatch is kept does not matter for that.
          by_cases hfurther : other.rest.length < mismatch.rest.length
          · simp [hcommitted, hother, Mismatch.furthest, hfurther]
          · simp [hcommitted, hother, Mismatch.furthest, hfurther]

lemma StaysOpen.or {first second : Reader α} (hfirst : first.StaysOpen)
    (hsecond : second.StaysOpen) : (or first second).StaysOpen := by
  intro input
  obtain hdeclines | ⟨result, hok⟩ := hfirst input
  · obtain hdeclines' | ⟨result, hok⟩ := hsecond input
    · exact Or.inl (or_declines.mpr ⟨hdeclines, hdeclines'⟩)
    · exact Or.inr ⟨result, or_eq_ok.mpr (Or.inr ⟨hdeclines, hok⟩)⟩
  · exact Or.inr ⟨result, or_eq_ok.mpr (Or.inl hok)⟩

lemma optional_eq_ok {reader : Reader α} {input rest : List Octet} {value : Option α} :
    optional reader input = .ok (value, rest) ↔
      (∃ found, reader input = .ok (found, rest) ∧ some found = value) ∨
        reader.Declines input ∧ none = value ∧ input = rest := by
  simp only [optional, Declines]
  cases reader input with
  | ok result =>
    obtain ⟨found, behind⟩ := result
    simp only [Except.ok.injEq, Prod.mk.injEq, reduceCtorEq, false_and, exists_false, or_false]
    constructor
    · intro h
      obtain ⟨rfl, rfl⟩ := h
      exact ⟨found, ⟨rfl, rfl⟩, rfl⟩
    · intro h
      obtain ⟨_, ⟨rfl, rfl⟩, rfl⟩ := h
      exact ⟨rfl, rfl⟩
  | error mismatch => cases hcommitted : mismatch.committed <;> simp [hcommitted]

lemma commit_eq_ok {reader : Reader α} {input : List Octet} {result : α × List Octet} :
    commit reader input = .ok result ↔ reader input = .ok result := by
  simp only [commit]
  cases reader input <;> simp

lemma label_eq_ok {expected : Expected} {reader : Reader α} {input : List Octet}
    {result : α × List Octet} :
    label expected reader input = .ok result ↔ reader input = .ok result := by
  simp only [label]
  cases reader input with
  | ok => simp
  | error mismatch => by_cases h : mismatch.rest.length = input.length <;> simp [h]

lemma label_declines {expected : Expected} {reader : Reader α} {input : List Octet} :
    (label expected reader).Declines input ↔ reader.Declines input := by
  simp only [label, Declines]
  cases reader input with
  | ok => simp
  | error mismatch => by_cases h : mismatch.rest.length = input.length <;> simp [h]

lemma StaysOpen.label {reader : Reader α} (hreader : reader.StaysOpen) (expected : Expected) :
    (label expected reader).StaysOpen := by
  intro input
  obtain hdeclines | ⟨result, hok⟩ := hreader input
  · exact Or.inl (label_declines.mpr hdeclines)
  · exact Or.inr ⟨result, label_eq_ok.mpr hok⟩

/-! ### Repetition -/

/-- More turns than the input has octets make no difference. -/
lemma manyUpTo_eq {reader : Reader α} (hreader : reader.Shrinks) (turns more : Nat)
    (input : List Octet) (hturns : input.length < turns) (hmore : input.length < more) :
    manyUpTo reader turns input = manyUpTo reader more input := by
  -- On the turns of one run, of which a turn of the reader leaves enough.
  induction turns generalizing more input with
  | zero => omega
  | succ turns ih =>
    cases more with
    | zero => omega
    | succ more =>
      simp only [manyUpTo]
      cases h : reader input with
      | error => rfl
      | ok result =>
        have hlength := hreader _ _ _ h
        simp only
        rw [ih more result.2 (by omega) (by omega)]

lemma many_of_ok {reader : Reader α} (hreader : reader.Shrinks) {input middle : List Octet}
    {value : α} (h : reader input = .ok (value, middle)) :
    many reader input = (many reader middle).map fun (others, rest) => (value :: others, rest) := by
  have hlength := hreader _ _ _ h
  have hturns : manyUpTo reader input.length middle = many reader middle :=
    manyUpTo_eq hreader _ _ middle hlength (by omega)
  rw [many, manyUpTo, h]
  simp only [hlength.ne, if_false, hturns]
  cases many reader middle with
  | error => rfl
  | ok => rfl

lemma many_eq_ok {reader : Reader α} (hreader : reader.Shrinks) {input rest : List Octet}
    {values : List α} :
    many reader input = .ok (values, rest) ↔
      (∃ value middle others, reader input = .ok (value, middle) ∧
        many reader middle = .ok (others, rest) ∧ value :: others = values) ∨
      reader.Declines input ∧ [] = values ∧ input = rest := by
  cases h : reader input with
  | error mismatch =>
    simp only [many, manyUpTo, Declines, h]
    cases hcommitted : mismatch.committed <;> simp [hcommitted]
  | ok result =>
    obtain ⟨value, middle⟩ := result
    rw [many_of_ok hreader h]
    simp only [Declines, h, Except.ok.injEq, Prod.mk.injEq, reduceCtorEq, false_and, exists_false,
      or_false]
    constructor
    · intro hmap
      cases hmany : many reader middle with
      | error => simp [hmany, Except.map] at hmap
      | ok =>
        simp only [hmany, Except.map, Except.ok.injEq, Prod.mk.injEq] at hmap
        obtain ⟨rfl, rfl⟩ := hmap
        exact ⟨value, middle, _, ⟨rfl, rfl⟩, hmany, rfl⟩
    · intro hparts
      obtain ⟨_, _, others, ⟨rfl, rfl⟩, hmany, rfl⟩ := hparts
      rw [hmany]
      rfl

/-- What holds where no turn succeeds, and before each turn if it holds behind it. -/
lemma many_induction {reader : Reader α} (hreader : reader.Shrinks)
    {motive : List Octet → List α → Prop} {rest : List Octet}
    (hstop : reader.Declines rest → motive rest [])
    (hturn : ∀ {input middle value values}, reader input = .ok (value, middle) →
      motive middle values → motive input (value :: values))
    {input : List Octet} {values : List α} (h : many reader input = .ok (values, rest)) :
    motive input values := by
  induction values generalizing input with
  | nil =>
    obtain ⟨_, _, _, _, _, heq⟩ | ⟨hdeclines, -, rfl⟩ := (many_eq_ok hreader).mp h
    · cases heq
    · exact hstop hdeclines
  | cons value values ih =>
    obtain ⟨_, middle, _, hvalue, hmany, heq⟩ | ⟨-, heq, -⟩ := (many_eq_ok hreader).mp h
    · cases heq
      exact hturn hvalue (ih hmany)
    · cases heq

lemma many1_eq_ok {reader : Reader α} {input rest : List Octet} {values : List α} :
    many1 reader input = .ok (values, rest) ↔
      ∃ value middle others, reader input = .ok (value, middle) ∧
        many reader middle = .ok (others, rest) ∧ value :: others = values := by
  simp only [many1, bind_eq_ok, pure_eq_ok, Prod.mk.injEq]
  constructor
  · intro h
    obtain ⟨value, middle, hvalue, others, _, hothers, rfl, rfl⟩ := h
    exact ⟨value, middle, others, hvalue, hothers, rfl⟩
  · intro h
    obtain ⟨value, middle, others, hvalue, hothers, rfl⟩ := h
    exact ⟨value, middle, hvalue, others, rest, hothers, rfl, rfl⟩

end Reader

end AugmentedBnf
