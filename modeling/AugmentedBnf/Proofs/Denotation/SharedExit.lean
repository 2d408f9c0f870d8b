import AugmentedBnf.Proofs.Denotation.Expansion
import AugmentedBnf.Proofs.Nfa.SharedExit

/-!
# Bodies that share the exit of a loop

Unbounded repetitions leave a loop where they end. A body is read off for whether one ends at the
exit of the body, and for whether one ends anywhere at an exit that is shared: by the branches of
an alternation, or with an edge that skips an option or an optional repetition. References stand for
the bodies of the rules they name, however deep.

* `Alternation.loops_expand`: the pattern of a body that does not end with a loop leaves none.
* `Alternation.isExact_expand`: the pattern of a body without a shared loop has no traces but words.
-/

namespace AugmentedBnf

section

variable (rules : List Rule) (mode : CountMode)

mutual

inductive Element.LoopsAtExit : Element → Prop
  | reference {rule} (hrule : rule ∈ rules) (hbody : Alternation.LoopsAtExit rule.body) :
      Element.LoopsAtExit (.reference rule.name)
  | group {body} (hbody : Alternation.LoopsAtExit body) : Element.LoopsAtExit (.group body)
  | option {body} (hbody : Alternation.LoopsAtExit body) : Element.LoopsAtExit (.option body)

/-- A repetition ends with a loop: its own if there is no maximum, or else that of its element. -/
inductive Repetition.LoopsAtExit : Repetition → Prop
  | once {element} (helement : Element.LoopsAtExit element) :
      Repetition.LoopsAtExit ⟨none, element⟩
  | unbounded {bounds element} (hmax : bounds.maximum mode = none) :
      Repetition.LoopsAtExit ⟨some bounds, element⟩
  | bounded {bounds element} (hzero : bounds.isZero mode = false)
      (helement : Element.LoopsAtExit element) : Repetition.LoopsAtExit ⟨some bounds, element⟩

inductive Concatenation.LoopsAtExit : Concatenation → Prop
  | last {branch repetition} (hlast : branch.getLast? = some repetition)
      (hloops : Repetition.LoopsAtExit repetition) : Concatenation.LoopsAtExit branch

inductive Alternation.LoopsAtExit : Alternation → Prop
  | branch {body branch} (hmem : branch ∈ body) (hloops : Concatenation.LoopsAtExit branch) :
      Alternation.LoopsAtExit body

end

mutual

/-- Somewhere in an element a loop ends at a shared exit. In an option this is the exit of its body,
which may be skipped. -/
inductive Element.SharesLoop : Element → Prop
  | reference {rule} (hrule : rule ∈ rules) (hbody : Alternation.SharesLoop rule.body) :
      Element.SharesLoop (.reference rule.name)
  | group {body} (hbody : Alternation.SharesLoop body) : Element.SharesLoop (.group body)
  | option {body} (hbody : Alternation.SharesLoop body) : Element.SharesLoop (.option body)
  | skipped {body} (hloops : Alternation.LoopsAtExit rules mode body) :
      Element.SharesLoop (.option body)

/-- Somewhere in a repetition a loop ends at a shared exit. This may be that of its element, if the
repetition may be skipped. An element that occurs no time is not looked at. -/
inductive Repetition.SharesLoop : Repetition → Prop
  | once {element} (helement : Element.SharesLoop element) : Repetition.SharesLoop ⟨none, element⟩
  | repeated {bounds element} (hzero : bounds.isZero mode = false)
      (helement : Element.SharesLoop element) : Repetition.SharesLoop ⟨some bounds, element⟩
  | skipped {bounds element} (hzero : bounds.isZero mode = false) (hmin : bounds.min = 0)
      (hloops : Element.LoopsAtExit rules mode element) :
      Repetition.SharesLoop ⟨some bounds, element⟩

inductive Concatenation.SharesLoop : Concatenation → Prop
  | repetition {branch repetition} (hmem : repetition ∈ branch)
      (hshares : Repetition.SharesLoop repetition) : Concatenation.SharesLoop branch

/-- Somewhere in an alternation a loop ends at a shared exit. This may be that of the alternation
itself, if there is a branch beside the one that loops. -/
inductive Alternation.SharesLoop : Alternation → Prop
  | branch {body branch} (hmem : branch ∈ body) (hshares : Concatenation.SharesLoop branch) :
      Alternation.SharesLoop body
  | beside {body branch} (hlength : 2 ≤ body.length) (hmem : branch ∈ body)
      (hloops : Concatenation.LoopsAtExit rules mode branch) : Alternation.SharesLoop body

end

end

variable {rules : List Rule} {mode : CountMode}

/-! ### Taking bodies apart -/

lemma Element.loopsAtExit_reference {name : String} :
    Element.LoopsAtExit rules mode (.reference name) ↔
      ∃ rule ∈ rules, rule.name = name ∧ Alternation.LoopsAtExit rules mode rule.body := by
  constructor
  · intro h
    cases h with
    | reference hrule hbody => exact ⟨_, hrule, rfl, hbody⟩
  · rintro ⟨rule, hrule, rfl, hbody⟩
    exact .reference hrule hbody

@[simp] lemma Element.loopsAtExit_group {body : Alternation} :
    Element.LoopsAtExit rules mode (.group body) ↔ Alternation.LoopsAtExit rules mode body := by
  constructor
  · intro h
    cases h with
    | group hbody => exact hbody
  · exact .group

@[simp] lemma Element.loopsAtExit_option {body : Alternation} :
    Element.LoopsAtExit rules mode (.option body) ↔ Alternation.LoopsAtExit rules mode body := by
  constructor
  · intro h
    cases h with
    | option hbody => exact hbody
  · exact .option

@[simp] lemma Element.not_loopsAtExit_literal {octets : List Octet} :
    ¬ Element.LoopsAtExit rules mode (.literal octets) := nofun

@[simp] lemma Element.not_loopsAtExit_numeric {value : Numeric} :
    ¬ Element.LoopsAtExit rules mode (.numeric value) := nofun

@[simp] lemma Element.not_loopsAtExit_prose {octets : List Octet} :
    ¬ Element.LoopsAtExit rules mode (.prose octets) := nofun

@[simp] lemma Repetition.loopsAtExit_once {element : Element} :
    Repetition.LoopsAtExit rules mode ⟨none, element⟩ ↔ Element.LoopsAtExit rules mode element := by
  constructor
  · intro h
    cases h with
    | once helement => exact helement
  · exact .once

@[simp] lemma Repetition.loopsAtExit_repeated {bounds : Repeat} {element : Element} :
    Repetition.LoopsAtExit rules mode ⟨some bounds, element⟩ ↔
      bounds.maximum mode = none ∨
        bounds.isZero mode = false ∧ Element.LoopsAtExit rules mode element := by
  constructor
  · intro h
    cases h with
    | unbounded hmax => exact .inl hmax
    | bounded hzero helement => exact .inr ⟨hzero, helement⟩
  · rintro (hmax | ⟨hzero, helement⟩)
    · exact .unbounded hmax
    · exact .bounded hzero helement

@[simp] lemma Concatenation.loopsAtExit_iff {branch : Concatenation} :
    Concatenation.LoopsAtExit rules mode branch ↔
      ∃ repetition ∈ branch.getLast?, Repetition.LoopsAtExit rules mode repetition := by
  constructor
  · intro h
    cases h with
    | last hlast hloops => exact ⟨_, hlast, hloops⟩
  · rintro ⟨repetition, hlast, hloops⟩
    exact .last hlast hloops

@[simp] lemma Alternation.loopsAtExit_iff {body : Alternation} :
    Alternation.LoopsAtExit rules mode body ↔
      ∃ branch ∈ body, Concatenation.LoopsAtExit rules mode branch := by
  constructor
  · intro h
    cases h with
    | branch hmem hloops => exact ⟨_, hmem, hloops⟩
  · rintro ⟨branch, hmem, hloops⟩
    exact .branch hmem hloops

lemma Element.sharesLoop_reference {name : String} :
    Element.SharesLoop rules mode (.reference name) ↔
      ∃ rule ∈ rules, rule.name = name ∧ Alternation.SharesLoop rules mode rule.body := by
  constructor
  · intro h
    cases h with
    | reference hrule hbody => exact ⟨_, hrule, rfl, hbody⟩
  · rintro ⟨rule, hrule, rfl, hbody⟩
    exact .reference hrule hbody

@[simp] lemma Element.sharesLoop_group {body : Alternation} :
    Element.SharesLoop rules mode (.group body) ↔ Alternation.SharesLoop rules mode body := by
  constructor
  · intro h
    cases h with
    | group hbody => exact hbody
  · exact .group

@[simp] lemma Element.sharesLoop_option {body : Alternation} :
    Element.SharesLoop rules mode (.option body) ↔
      Alternation.SharesLoop rules mode body ∨ Alternation.LoopsAtExit rules mode body := by
  constructor
  · intro h
    cases h with
    | option hbody => exact .inl hbody
    | skipped hloops => exact .inr hloops
  · rintro (hbody | hloops)
    · exact .option hbody
    · exact .skipped hloops

@[simp] lemma Element.not_sharesLoop_literal {octets : List Octet} :
    ¬ Element.SharesLoop rules mode (.literal octets) := nofun

@[simp] lemma Element.not_sharesLoop_numeric {value : Numeric} :
    ¬ Element.SharesLoop rules mode (.numeric value) := nofun

@[simp] lemma Element.not_sharesLoop_prose {octets : List Octet} :
    ¬ Element.SharesLoop rules mode (.prose octets) := nofun

@[simp] lemma Repetition.sharesLoop_once {element : Element} :
    Repetition.SharesLoop rules mode ⟨none, element⟩ ↔ Element.SharesLoop rules mode element := by
  constructor
  · intro h
    cases h with
    | once helement => exact helement
  · exact .once

@[simp] lemma Repetition.sharesLoop_repeated {bounds : Repeat} {element : Element} :
    Repetition.SharesLoop rules mode ⟨some bounds, element⟩ ↔
      bounds.isZero mode = false ∧ (Element.SharesLoop rules mode element ∨
        bounds.min = 0 ∧ Element.LoopsAtExit rules mode element) := by
  constructor
  · intro h
    cases h with
    | repeated hzero helement => exact ⟨hzero, .inl helement⟩
    | skipped hzero hmin hloops => exact ⟨hzero, .inr ⟨hmin, hloops⟩⟩
  · rintro ⟨hzero, helement | ⟨hmin, hloops⟩⟩
    · exact .repeated hzero helement
    · exact .skipped hzero hmin hloops

@[simp] lemma Concatenation.sharesLoop_iff {branch : Concatenation} :
    Concatenation.SharesLoop rules mode branch ↔
      ∃ repetition ∈ branch, Repetition.SharesLoop rules mode repetition := by
  constructor
  · intro h
    cases h with
    | repetition hmem hshares => exact ⟨_, hmem, hshares⟩
  · rintro ⟨repetition, hmem, hshares⟩
    exact .repetition hmem hshares

@[simp] lemma Alternation.sharesLoop_iff {body : Alternation} :
    Alternation.SharesLoop rules mode body ↔
      (∃ branch ∈ body, Concatenation.SharesLoop rules mode branch) ∨
        2 ≤ body.length ∧ Alternation.LoopsAtExit rules mode body := by
  constructor
  · intro h
    cases h with
    | branch hmem hshares => exact .inl ⟨_, hmem, hshares⟩
    | beside hlength hmem hloops => exact .inr ⟨hlength, .branch hmem hloops⟩
  · rintro (⟨branch, hmem, hshares⟩ | ⟨hlength, hloops⟩)
    · exact .branch hmem hshares
    · obtain ⟨branch, hmem, hloops⟩ := loopsAtExit_iff.mp hloops
      exact .beside hlength hmem hloops

lemma Concatenation.LoopsAtExit.cons {repetition next : Repetition} {rest : Concatenation}
    (h : Concatenation.LoopsAtExit rules mode (next :: rest)) :
    Concatenation.LoopsAtExit rules mode (repetition :: next :: rest) := by
  rw [loopsAtExit_iff] at h ⊢
  rwa [List.getLast?_cons_cons]

lemma Concatenation.SharesLoop.cons {repetition : Repetition} {rest : Concatenation}
    (h : Concatenation.SharesLoop rules mode rest) :
    Concatenation.SharesLoop rules mode (repetition :: rest) := by
  rw [sharesLoop_iff] at h ⊢
  rw [List.exists_mem_cons_iff]
  exact .inr h

lemma Alternation.LoopsAtExit.cons {branch : Concatenation} {rest : Alternation}
    (h : Alternation.LoopsAtExit rules mode rest) :
    Alternation.LoopsAtExit rules mode (branch :: rest) := by
  rw [loopsAtExit_iff] at h ⊢
  rw [List.exists_mem_cons_iff]
  exact .inr h

lemma Alternation.SharesLoop.cons {branch : Concatenation} {rest : Alternation}
    (h : Alternation.SharesLoop rules mode rest) :
    Alternation.SharesLoop rules mode (branch :: rest) := by
  rw [sharesLoop_iff] at h ⊢
  rcases h with ⟨other, hmem, hshares⟩ | ⟨hlength, hloops⟩
  · exact .inl ⟨other, List.mem_cons_of_mem _ hmem, hshares⟩
  · exact .inr ⟨Nat.le_succ_of_le hlength, hloops.cons⟩

/-- Of several branches none may end with a loop. -/
lemma Alternation.SharesLoop.of_loopsAtExit {branch next : Concatenation} {rest : Alternation}
    (h : Alternation.LoopsAtExit rules mode (branch :: next :: rest)) :
    Alternation.SharesLoop rules mode (branch :: next :: rest) :=
  sharesLoop_iff.mpr (.inr ⟨Nat.le_add_left 2 rest.length, h⟩)

lemma Numeric.loops_pattern (value : Numeric) (mode : RangeMode) :
    (value.pattern mode).loops = 0 := by
  unfold pattern
  split
  · rfl
  · exact Pattern.loops_classes _

lemma Numeric.isExact_pattern (value : Numeric) (mode : RangeMode) :
    (value.pattern mode).IsExact := by
  unfold pattern
  split
  · exact Pattern.isExact_oneOf _
  · exact Pattern.isExact_classes _

/-! ### Expansion -/

section

variable {options : Options} {rule : String} {inline : String → Except ExpansionError Pattern}

/-- The function that expands references leaves no loops where names do not end with one, and its
patterns have no traces but words where names share no loop. -/
def KeepsExits (rules : List Rule) (options : Options)
    (inline : String → Except ExpansionError Pattern) : Prop :=
  ∀ name pattern, inline name = .ok pattern →
    (¬ Element.LoopsAtExit rules options.countMode (.reference name) → pattern.loops = 0) ∧
      (¬ Element.SharesLoop rules options.countMode (.reference name) → pattern.IsExact)

mutual

lemma Element.loops_expand (hinline : KeepsExits rules options inline) :
    ∀ (element : Element) (pattern : Pattern),
      Element.expand options rule inline element = .ok pattern →
      ¬ Element.LoopsAtExit rules options.countMode element → pattern.loops = 0
  | .reference name, pattern, h, hexit => (hinline name pattern h).1 hexit
  | .group body, pattern, h, hexit =>
    Alternation.loops_expand hinline body pattern h fun hbody => hexit (.group hbody)
  | .option body, pattern, h, hexit => by
    obtain ⟨inner, hbody, rfl⟩ := Element.expand_option_eq_ok.mp h
    have hinner := Alternation.loops_expand hinline body inner hbody fun hbody =>
      hexit (.option hbody)
    -- The way around the body leaves no loop, so those of the option are those of its body.
    rw [Pattern.loops, hinner]
    exact zero_add 0
  | .literal octets, pattern, h, _ | .prose octets, pattern, h, _ => by
    obtain rfl : Pattern.text octets = pattern := Except.ok.inj h
    exact Pattern.loops_classes _
  | .numeric value, pattern, h, _ => by
    obtain ⟨-, rfl⟩ := Element.expand_numeric_eq_ok.mp h
    exact value.loops_pattern options.rangeMode

lemma Repetition.loops_expand (hinline : KeepsExits rules options inline) :
    ∀ (repetition : Repetition) (pattern : Pattern),
      Repetition.expand options rule inline repetition = .ok pattern →
      ¬ Repetition.LoopsAtExit rules options.countMode repetition → pattern.loops = 0
  | ⟨none, element⟩, pattern, h, hexit =>
    Element.loops_expand hinline element pattern h fun helement => hexit (.once helement)
  | ⟨some bounds, element⟩, pattern, h, hexit => by
    obtain ⟨-, ⟨-, rfl⟩ | ⟨hzero, inner, helement, rfl⟩⟩ := Repetition.expand_bounds_eq_ok.mp h
    · rfl
    · have hinner := Element.loops_expand hinline element inner helement fun helement =>
        hexit (.bounded hzero helement)
      cases hmax : bounds.maximum options.countMode with
      | none => exact absurd (.unbounded hmax) hexit
      | some max => rw [Option.map_some, Pattern.loops_repeated, hinner]

lemma Concatenation.loops_expand (hinline : KeepsExits rules options inline) :
    ∀ (branch : Concatenation) (pattern : Pattern),
      Concatenation.expand options rule inline branch = .ok pattern →
      ¬ Concatenation.LoopsAtExit rules options.countMode branch → pattern.loops = 0
  | [], pattern, h, _ => by
    obtain rfl : Pattern.skip = pattern := Except.ok.inj h
    rfl
  | [repetition], pattern, h, hexit =>
    Repetition.loops_expand hinline repetition pattern h fun hloops => hexit (.last rfl hloops)
  | repetition :: next :: rest, pattern, h, hexit => by
    obtain ⟨first, -, second, hsecond, rfl⟩ := Concatenation.expand_cons_cons_eq_ok.mp h
    exact Concatenation.loops_expand hinline (next :: rest) second hsecond fun hrest =>
      hexit hrest.cons

/-- The pattern of a body that does not end with a loop leaves none. -/
lemma Alternation.loops_expand (hinline : KeepsExits rules options inline) :
    ∀ (body : Alternation) (pattern : Pattern),
      Alternation.expand options rule inline body = .ok pattern →
      ¬ Alternation.LoopsAtExit rules options.countMode body → pattern.loops = 0
  | [], pattern, h, _ => by
    cases h
  | [branch], pattern, h, hexit =>
    Concatenation.loops_expand hinline branch pattern h fun hloops =>
      hexit (.branch List.mem_cons_self hloops)
  | branch :: next :: rest, pattern, h, hexit => by
    obtain ⟨first, hfirst, second, hsecond, rfl⟩ := Alternation.expand_cons_cons_eq_ok.mp h
    rw [Pattern.loops,
      Concatenation.loops_expand hinline branch first hfirst fun hloops =>
        hexit (.branch List.mem_cons_self hloops),
      Alternation.loops_expand hinline (next :: rest) second hsecond fun hrest => hexit hrest.cons]
    exact zero_add 0

end

mutual

lemma Element.isExact_expand (hinline : KeepsExits rules options inline) :
    ∀ (element : Element) (pattern : Pattern),
      Element.expand options rule inline element = .ok pattern →
      ¬ Element.SharesLoop rules options.countMode element → pattern.IsExact
  | .reference name, pattern, h, hshares => (hinline name pattern h).2 hshares
  | .group body, pattern, h, hshares =>
    Alternation.isExact_expand hinline body pattern h fun hbody => hshares (.group hbody)
  | .option body, pattern, h, hshares => by
    obtain ⟨inner, hbody, rfl⟩ := Element.expand_option_eq_ok.mp h
    have hinner := Alternation.isExact_expand hinline body inner hbody fun hbody =>
      hshares (.option hbody)
    -- The body may be skipped, so no loop may wait at the exit.
    have hnone := Alternation.loops_expand hinline body inner hbody fun hbody =>
      hshares (.skipped hbody)
    refine Pattern.isExact_union Pattern.isExact_skip hinner ?_
    rw [Pattern.loops, hnone]
    exact zero_add 0
  | .literal octets, pattern, h, _ | .prose octets, pattern, h, _ => by
    obtain rfl : Pattern.text octets = pattern := Except.ok.inj h
    exact Pattern.isExact_classes _
  | .numeric value, pattern, h, _ => by
    obtain ⟨-, rfl⟩ := Element.expand_numeric_eq_ok.mp h
    exact value.isExact_pattern options.rangeMode

lemma Repetition.isExact_expand (hinline : KeepsExits rules options inline) :
    ∀ (repetition : Repetition) (pattern : Pattern),
      Repetition.expand options rule inline repetition = .ok pattern →
      ¬ Repetition.SharesLoop rules options.countMode repetition → pattern.IsExact
  | ⟨none, element⟩, pattern, h, hshares =>
    Element.isExact_expand hinline element pattern h fun helement => hshares (.once helement)
  | ⟨some bounds, element⟩, pattern, h, hshares => by
    obtain ⟨-, ⟨-, rfl⟩ | ⟨hzero, inner, helement, rfl⟩⟩ := Repetition.expand_bounds_eq_ok.mp h
    · exact Pattern.isExact_skip
    · have hinner := Element.isExact_expand hinline element inner helement fun helement =>
        hshares (.repeated hzero helement)
      refine Pattern.isExact_repeated hinner fun hmin => ?_
      have hmin : bounds.min = 0 := UInt32.toNat_inj.mp hmin
      exact Element.loops_expand hinline element inner helement fun helement =>
        hshares (.skipped hzero hmin helement)

lemma Concatenation.isExact_expand (hinline : KeepsExits rules options inline) :
    ∀ (branch : Concatenation) (pattern : Pattern),
      Concatenation.expand options rule inline branch = .ok pattern →
      ¬ Concatenation.SharesLoop rules options.countMode branch → pattern.IsExact
  | [], pattern, h, _ => by
    obtain rfl : Pattern.skip = pattern := Except.ok.inj h
    exact Pattern.isExact_skip
  | [repetition], pattern, h, hshares =>
    Repetition.isExact_expand hinline repetition pattern h fun hfirst =>
      hshares (.repetition List.mem_cons_self hfirst)
  | repetition :: next :: rest, pattern, h, hshares => by
    obtain ⟨first, hfirst, second, hsecond, rfl⟩ := Concatenation.expand_cons_cons_eq_ok.mp h
    exact Pattern.isExact_seq
      (Repetition.isExact_expand hinline repetition first hfirst fun hfirst =>
        hshares (.repetition List.mem_cons_self hfirst))
      (Concatenation.isExact_expand hinline (next :: rest) second hsecond fun hrest =>
        hshares hrest.cons)

/-- The pattern of a body without a loop at a shared exit has no traces but its words. -/
lemma Alternation.isExact_expand (hinline : KeepsExits rules options inline) :
    ∀ (body : Alternation) (pattern : Pattern),
      Alternation.expand options rule inline body = .ok pattern →
      ¬ Alternation.SharesLoop rules options.countMode body → pattern.IsExact
  | [], pattern, h, _ => by
    cases h
  | [branch], pattern, h, hshares =>
    Concatenation.isExact_expand hinline branch pattern h fun hbranch =>
      hshares (.branch List.mem_cons_self hbranch)
  | branch :: next :: rest, pattern, h, hshares => by
    -- Of two branches or more none may loop, or its loop would be behind the others.
    have hnone := Alternation.loops_expand hinline _ pattern h fun hbody =>
      hshares (.of_loopsAtExit hbody)
    obtain ⟨first, hfirst, second, hsecond, rfl⟩ := Alternation.expand_cons_cons_eq_ok.mp h
    exact Pattern.isExact_union
      (Concatenation.isExact_expand hinline branch first hfirst fun hbranch =>
        hshares (.branch List.mem_cons_self hbranch))
      (Alternation.isExact_expand hinline (next :: rest) second hsecond fun hrest =>
        hshares hrest.cons)
      hnone

end

end

namespace RegularRules

variable {regular : RegularRules} {options : Options}

/-- The pattern of a name has the loops of the body of its rule, and is exact if no loop in that
body ends at a shared exit. -/
lemma keepsExits_inline (hsubset : regular.rules ⊆ rules) (depth : Nat) (rule : String) :
    KeepsExits rules options (regular.inline options depth rule) := by
  refine inline_induction ?_ depth rule
  intro found hmem inline hinline pattern hbody
  constructor
  · intro hexit
    exact Alternation.loops_expand hinline found.body pattern hbody fun hloops =>
      hexit (.reference (hsubset hmem) hloops)
  · intro hshares
    exact Alternation.isExact_expand hinline found.body pattern hbody fun hbody =>
      hshares (.reference (hsubset hmem) hbody)

end RegularRules

end AugmentedBnf
