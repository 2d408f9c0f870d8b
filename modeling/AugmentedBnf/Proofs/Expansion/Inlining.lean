import Mathlib.Logic.Relation
import AugmentedBnf.Proofs.Classification.Correspondence
import AugmentedBnf.Proofs.Expansion.Basic

/-!
# Rules inside of each other

An expansion looks up the names that a body refers to, and no others. While it goes on, the rules it
is inside of form a stack, in which every rule refers to the name of the one inside of it. The
depth of an expansion bounds the height of its stacks and is good for nothing else: an answer that
does not use it up stays the same if there is more of it.

* `Alternation.expand_related`: answers for a body are related if those for its names are.
* `RegularRules.inline_rel`: names have related answers among rules whose bodies have them.
* `RegularRules.refines_inline`: a greater depth keeps all answers but endless ones.
* `RegularRules.inlineWithin_eq_inline`: the stacks of an expansion are stacks of rules that refer to
  one another.
* `RegularRules.exists_isStack_of_endless`: an endless answer has a stack as high as the depth
  allows.
-/

namespace AugmentedBnf

section

variable {R : Except ExpansionError Pattern → Except ExpansionError Pattern → Prop}
  {options options' : Options}

/-- A relation between answers that relates what a body has answers for by itself, and that is kept
by going on with related answers. -/
structure IsStable (R : Except ExpansionError Pattern → Except ExpansionError Pattern → Prop) :
    Prop where
  ok (pattern : Pattern) : R (.ok pattern) (.ok pattern)
  faulty (fault : Fault) (rule : String) :
    R (.error (.faulty fault rule)) (.error (.faulty fault rule))
  bind {a b : Except ExpansionError Pattern} {f g : Pattern → Except ExpansionError Pattern}
    (hab : R a b) (hfg : ∀ pattern, R (f pattern) (g pattern)) : R (a >>= f) (b >>= g)

/-- Options that differ in the faults of repeat bounds at most, where a fault that bounds have under
the first options only is related to all answers. -/
structure AnswersAlike (R : Except ExpansionError Pattern → Except ExpansionError Pattern → Prop)
    (options options' : Options) : Prop where
  rangeMode : options.rangeMode = options'.rangeMode
  countMode : options.countMode = options'.countMode
  fault? (bounds : Repeat) : bounds.fault? options = bounds.fault? options' ∨
    ∃ fault, bounds.fault? options = some fault ∧
      ∀ rule answer, R (.error (.faulty fault rule)) answer

lemma AnswersAlike.refl (options : Options) : AnswersAlike R options options :=
  ⟨rfl, rfl, fun _ => .inl rfl⟩

/-- Answers that are the same but for failures of some kind, which stay failures whatever follows
them, are stable. -/
lemma isStable_or_eq {Fails : Except ExpansionError Pattern → Prop}
    (hfails : ∀ {answer} {next : Pattern → Except ExpansionError Pattern}, Fails answer →
      Fails (answer >>= next)) :
    IsStable fun answer other => Fails answer ∨ answer = other where
  ok _ := .inr rfl
  faulty _ _ := .inr rfl
  bind {a b f g} hab hfg := by
    rcases hab with h | rfl
    · exact .inl (hfails h)
    · cases a with
      | error error => exact .inr rfl
      | ok pattern => exact hfg pattern

lemma isStable_eq : IsStable Eq where
  ok _ := rfl
  faulty _ _ := rfl
  bind hab hfg := by
    rw [hab, funext hfg]

variable {rule : String} {inline inline' : String → Except ExpansionError Pattern}

mutual

/-- Answers for an element are related if those for the names it refers to are. -/
lemma Element.expand_related (hR : IsStable R) (hoptions : AnswersAlike R options options') :
    ∀ element : Element, (∀ name ∈ element.references, R (inline name) (inline' name)) →
      R (element.expand options rule inline) (element.expand options' rule inline')
  | .reference name, h => h name List.mem_cons_self
  | .group body, h => Alternation.expand_related hR hoptions body h
  | .option body, h => hR.bind (Alternation.expand_related hR hoptions body h) fun _ => hR.ok _
  | .literal octets, _ | .prose octets, _ => hR.ok (.text octets)
  | .numeric value, _ => by
    simp only [Element.expand, hoptions.rangeMode]
    cases value.fault? options'.rangeMode with
    | none => exact hR.ok _
    | some fault => exact hR.faulty fault rule

lemma Repetition.expand_related (hR : IsStable R) (hoptions : AnswersAlike R options options') :
    ∀ repetition : Repetition, (∀ name ∈ repetition.references, R (inline name) (inline' name)) →
      R (repetition.expand options rule inline) (repetition.expand options' rule inline')
  | ⟨none, element⟩, h => Element.expand_related hR hoptions element h
  | ⟨some bounds, element⟩, h => by
    simp only [Repetition.expand, hoptions.countMode]
    rcases hoptions.fault? bounds with hsame | ⟨fault, hfault, hrelated⟩
    · rw [hsame]
      cases bounds.fault? options' with
      | some fault => exact hR.faulty fault rule
      | none =>
        split_ifs
        · exact hR.ok .skip
        · exact hR.bind (Element.expand_related hR hoptions element h) fun _ => hR.ok _
    · rw [hfault]
      exact hrelated rule _

lemma Concatenation.expand_related (hR : IsStable R) (hoptions : AnswersAlike R options options') :
    ∀ branch : Concatenation,
      (∀ name ∈ Concatenation.references branch, R (inline name) (inline' name)) →
      R (Concatenation.expand options rule inline branch)
        (Concatenation.expand options' rule inline' branch)
  | [], _ => hR.ok .skip
  | [repetition], h => Repetition.expand_related hR hoptions repetition fun name hname =>
    h name (List.mem_append_left _ hname)
  | repetition :: next :: rest, h => by
    refine hR.bind (Repetition.expand_related hR hoptions repetition fun name hname =>
      h name (List.mem_append_left _ hname)) fun first => ?_
    exact hR.bind (Concatenation.expand_related hR hoptions (next :: rest) fun name hname =>
      h name (List.mem_append_right _ hname)) fun second => hR.ok _

/-- Answers for a body are related if those for the names it refers to are. -/
lemma Alternation.expand_related (hR : IsStable R) (hoptions : AnswersAlike R options options') :
    ∀ body : Alternation, (∀ name ∈ Alternation.references body, R (inline name) (inline' name)) →
      R (Alternation.expand options rule inline body)
        (Alternation.expand options' rule inline' body)
  | [], _ => hR.faulty .emptyAlternation rule
  | [branch], h => Concatenation.expand_related hR hoptions branch fun name hname =>
    h name (List.mem_append_left _ hname)
  | branch :: next :: rest, h => by
    refine hR.bind (Concatenation.expand_related hR hoptions branch fun name hname =>
      h name (List.mem_append_left _ hname)) fun first => ?_
    exact hR.bind (Alternation.expand_related hR hoptions (next :: rest) fun name hname =>
      h name (List.mem_append_right _ hname)) fun second => hR.ok _

end

end

/-! ### Endless answers -/

/-- An answer of an expansion whose depth is used up. -/
def IsEndless (answer : Except ExpansionError Pattern) : Prop :=
  ∃ last, answer = .error (.endless last)

/-- An answer is the same as another one unless it is endless. -/
def Refines (answer other : Except ExpansionError Pattern) : Prop :=
  IsEndless answer ∨ answer = other

lemma isEndless_bind {answer : Except ExpansionError Pattern}
    {next : Pattern → Except ExpansionError Pattern} :
    IsEndless (answer >>= next) ↔
      IsEndless answer ∨ ∃ pattern, answer = .ok pattern ∧ IsEndless (next pattern) := by
  cases answer with
  | error error => simp [IsEndless, bind, Except.bind]
  | ok pattern => simp [IsEndless, bind, Except.bind]

lemma isStable_not_isEndless : IsStable fun answer _ => ¬ IsEndless answer where
  ok pattern := by simp [IsEndless]
  faulty fault rule := by simp [IsEndless]
  bind ha hf h := by
    rcases isEndless_bind.mp h with h | ⟨pattern, -, h⟩
    · exact ha h
    · exact hf pattern h

lemma isStable_refines : IsStable Refines :=
  isStable_or_eq fun hendless => isEndless_bind.mpr (.inl hendless)

/-- An endless answer for a body comes from a name that the body refers to. -/
lemma Alternation.exists_isEndless_of_expand {options : Options} {rule : String}
    {inline : String → Except ExpansionError Pattern} {body : Alternation}
    (h : IsEndless (Alternation.expand options rule inline body)) :
    ∃ name ∈ Alternation.references body, IsEndless (inline name) := by
  -- If no name had an endless answer, the relation that holds of other answers would hold here.
  by_contra hnone
  push Not at hnone
  exact @Alternation.expand_related _ options options rule inline inline isStable_not_isEndless
    (.refl options) body hnone h

namespace RegularRules

variable {regular : RegularRules} {options : Options} {depth : Nat} {rule name root : String}
  {found : Rule} {stack : List Rule}

lemma contains_iff : regular.contains name ↔ ∃ found, regular.get? name = some found := by
  simp [contains, get?, ← Option.isSome_iff_exists]

/-- The rule of a name is the rule of its own name. -/
lemma get?_name (h : regular.get? name = some found) : regular.get? found.name = some found := by
  rw [(name_of_get? h).2]
  exact h

/-- An answer is that for the body of the rule, if the name stands for a rule. -/
lemma inline_succ (h : regular.resolve rule name = .ok found) :
    regular.inline options (depth + 1) rule name =
      Alternation.expand options found.name (regular.inline options depth found.name)
        found.body := by
  simp [inline, h, bind, Except.bind]

lemma inline_zero (h : regular.resolve rule name = .ok found) :
    regular.inline options 0 rule name = .error (.endless found.name) := by
  simp [inline, h, bind, Except.bind]

/-- Without a rule the answer is a fault, whatever the depth. -/
lemma inline_eq_error {error : ExpansionError} (h : regular.resolve rule name = .error error) :
    regular.inline options depth rule name = .error error := by
  cases depth <;> simp [inline, h, bind, Except.bind]

lemma exists_resolve_of_isEndless (h : IsEndless (regular.inline options depth rule name)) :
    ∃ found, regular.resolve rule name = .ok found := by
  cases hresolve : regular.resolve rule name with
  | ok found => exact ⟨found, rfl⟩
  | error error =>
    rw [inline_eq_error hresolve] at h
    obtain ⟨last, h⟩ := h
    obtain rfl := Except.error.inj h
    unfold resolve at hresolve
    split at hresolve
    · cases hresolve
    · split at hresolve <;> cases hresolve

/-- At the same depth, names have related answers among rules that correspond, if the bodies of such
rules have related answers wherever the names in them do. -/
lemma inline_rel {S : Rule → Rule → Prop} {regular' : RegularRules} {options' : Options}
    {R : Except ExpansionError Pattern → Except ExpansionError Pattern → Prop}
    (hS : KeepsNames S) (hmarker : ∀ {rule rule' : Rule}, S rule rule' → rule.marker = rule'.marker)
    (herror : ∀ error, R (.error error) (.error error))
    (hbody : ∀ {found found' : Rule} {inline inline' : String → Except ExpansionError Pattern},
      S found found' → (∀ name, R (inline name) (inline' name)) →
        R (Alternation.expand options found.name inline found.body)
          (Alternation.expand options' found.name inline' found'.body))
    (h : List.Forall₂ S regular.rules regular'.rules) (depth : Nat) (rule name : String) :
    R (regular.inline options depth rule name) (regular'.inline options' depth rule name) := by
  induction depth generalizing rule name with
  | zero =>
    rcases resolve_rel hS hmarker h rule name with
      ⟨found, found', hfound, hfound', hrel⟩ | ⟨error, hfault, hfault'⟩
    · rw [inline_zero hfound, inline_zero hfound', ← hS.name hrel]
      exact herror _
    · rw [inline_eq_error hfault, inline_eq_error hfault']
      exact herror error
  | succ depth ih =>
    rcases resolve_rel hS hmarker h rule name with
      ⟨found, found', hfound, hfound', hrel⟩ | ⟨error, hfault, hfault'⟩
    · rw [inline_succ hfound, inline_succ hfound', ← hS.name hrel]
      exact hbody hrel (ih found.name)
    · rw [inline_eq_error hfault, inline_eq_error hfault']
      exact herror error

/-- A greater depth keeps all answers but endless ones. -/
lemma refines_inline (more : Nat) :
    Refines (regular.inline options depth rule name)
      (regular.inline options (depth + more) rule name) := by
  induction depth generalizing rule name with
  | zero =>
    cases h : regular.resolve rule name with
    | error error =>
      rw [inline_eq_error h, inline_eq_error h]
      exact .inr rfl
    | ok found =>
      rw [inline_zero h]
      exact .inl ⟨_, rfl⟩
  | succ depth ih =>
    cases h : regular.resolve rule name with
    | error error =>
      rw [inline_eq_error h, inline_eq_error h]
      exact .inr rfl
    | ok found =>
      rw [Nat.add_right_comm, inline_succ h, inline_succ h]
      exact Alternation.expand_related isStable_refines (.refl options) found.body fun _ _ => ih

/-! ### Stacks -/

/-- The names that may be looked up inside of a stack of rules: the root, or what the innermost rule
refers to. -/
def LooksUp (root : String) : List Rule → String → Prop
  | [], name => name = root
  | rule :: _, name => name ∈ rule.dependencies

/-- Rules, innermost first, that an expansion may be inside of. -/
inductive IsStack (regular : RegularRules) (root : String) : List Rule → Prop
  | empty : IsStack regular root []
  | push {stack : List Rule} {name : String} {rule : Rule} (hstack : IsStack regular root stack)
      (hname : LooksUp root stack name) (hrule : regular.get? name = some rule) :
      IsStack regular root (rule :: stack)

section

variable (regular) (allowed : List Rule → Prop) [DecidablePred allowed] (options : Options)

/-- The pattern of a name inside of some rules, with the innermost one first. A rule is not gone into
if it may not be inside of these. -/
def inlineWithin : Nat → List Rule → (rule name : String) → Except ExpansionError Pattern
  | 0, _, rule, name => do
    let found ← regular.resolve rule name
    .error (.endless found.name)
  | depth + 1, stack, rule, name => do
    let found ← regular.resolve rule name
    if allowed (found :: stack) then
      Alternation.expand options found.name (inlineWithin depth (found :: stack) found.name)
        found.body
    else .error (.endless found.name)

end

/-- An expansion that is kept to stacks is the whole expansion. -/
lemma inlineWithin_eq_inline {allowed : List Rule → Prop} [DecidablePred allowed]
    (hallowed : ∀ stack, regular.IsStack root stack → allowed stack)
    (hstack : regular.IsStack root stack) (hname : LooksUp root stack name) :
    regular.inlineWithin allowed options depth stack rule name =
      regular.inline options depth rule name := by
  induction depth generalizing stack rule name with
  | zero => rfl
  | succ depth ih =>
    cases h : regular.resolve rule name with
    | error error => simp [inlineWithin, inline, h, bind, Except.bind]
    | ok found =>
      have hpush : regular.IsStack root (found :: stack) :=
        hstack.push hname (resolve_eq_ok h).1
      rw [inline_succ h]
      simp only [inlineWithin, h, bind, Except.bind, if_pos (hallowed _ hpush)]
      -- Only names that the body refers to are looked up in it.
      refine Alternation.expand_related isStable_eq (.refl options) found.body fun inner hinner => ?_
      exact ih hpush (Rule.mem_dependencies.mpr hinner)

/-- An endless answer has a stack that is higher than the depth. -/
lemma exists_isStack_of_endless (hstack : regular.IsStack root stack)
    (hname : LooksUp root stack name) (h : IsEndless (regular.inline options depth rule name)) :
    ∃ stack', regular.IsStack root stack' ∧ stack'.length = stack.length + depth + 1 := by
  induction depth generalizing stack rule name with
  | zero =>
    obtain ⟨found, hfound⟩ := exists_resolve_of_isEndless h
    exact ⟨found :: stack, hstack.push hname ((resolve_eq_ok hfound).1), rfl⟩
  | succ depth ih =>
    obtain ⟨found, hfound⟩ := exists_resolve_of_isEndless h
    rw [inline_succ hfound] at h
    obtain ⟨inner, hinner, h⟩ := Alternation.exists_isEndless_of_expand h
    obtain ⟨stack', hstack', hlength⟩ :=
      ih (hstack.push hname ((resolve_eq_ok hfound).1)) (Rule.mem_dependencies.mpr hinner) h
    refine ⟨stack', hstack', ?_⟩
    rw [hlength, List.length_cons]
    omega

end RegularRules

end AugmentedBnf
