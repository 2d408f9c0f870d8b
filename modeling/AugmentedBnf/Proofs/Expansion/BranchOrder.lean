import Mathlib.Data.List.Forall2
import AugmentedBnf.Proofs.Expansion.Inlining
import AugmentedBnf.Proofs.Nfa.Alike

/-!
# Branches in another order

The branches of an alternation may stand in another order, and so may those of the groups and
options inside of them. An expansion comes to the parts in another order then, so that it may tell
another fault. But it tells one all the same, or has a pattern that is alike.

* `Alternation.Reorders`: a body with branches in another order, at any depth.
* `Alternation.expand_reorders`: the answers for such bodies are alike.
-/

namespace AugmentedBnf

mutual

/-- The one element is the other with branches inside of it in another order. -/
inductive Element.Reorders : Element → Element → Prop
  | reference (name : String) : Element.Reorders (.reference name) (.reference name)
  | group {body body'} (hbody : Alternation.Reorders body body') :
      Element.Reorders (.group body) (.group body')
  | option {body body'} (hbody : Alternation.Reorders body body') :
      Element.Reorders (.option body) (.option body')
  | literal (octets : List Octet) : Element.Reorders (.literal octets) (.literal octets)
  | numeric (value : Numeric) : Element.Reorders (.numeric value) (.numeric value)
  | prose (octets : List Octet) : Element.Reorders (.prose octets) (.prose octets)

inductive Repetition.Reorders : Repetition → Repetition → Prop
  | element (bounds : Option Repeat) {element element'}
      (helement : Element.Reorders element element') :
      Repetition.Reorders ⟨bounds, element⟩ ⟨bounds, element'⟩

inductive Concatenation.Reorders : Concatenation → Concatenation → Prop
  | nil : Concatenation.Reorders [] []
  | cons {repetition repetition' rest rest'}
      (hfirst : Repetition.Reorders repetition repetition')
      (hrest : Concatenation.Reorders rest rest') :
      Concatenation.Reorders (repetition :: rest) (repetition' :: rest')

/-- The branches of the one alternation are those of the other, in the same order, with branches
inside of them in another order. -/
inductive Alternation.ReordersInside : Alternation → Alternation → Prop
  | nil : Alternation.ReordersInside [] []
  | cons {branch branch' rest rest'} (hbranch : Concatenation.Reorders branch branch')
      (hrest : Alternation.ReordersInside rest rest') :
      Alternation.ReordersInside (branch :: rest) (branch' :: rest')

/-- The one alternation is the other with its branches, and branches inside of them, in another
order. -/
inductive Alternation.Reorders : Alternation → Alternation → Prop
  | permute {body middle body'} (hinside : Alternation.ReordersInside body middle)
      (hperm : middle.Perm body') : Alternation.Reorders body body'

end

structure Rule.Reorders (rule rule' : Rule) : Prop where
  name : rule.name = rule'.name
  marker : rule.marker = rule'.marker
  body : Alternation.Reorders rule.body rule'.body

lemma Alternation.mem_references {body : Alternation} {name : String} :
    name ∈ Alternation.references body ↔
      ∃ branch ∈ body, name ∈ Concatenation.references branch := by
  induction body with
  | nil => simp [references]
  | cons branch rest ih => simp [references, ih]

section

variable {name : String}

mutual

lemma Element.mem_references_reorders {element element' : Element} :
    Element.Reorders element element' → (name ∈ element.references ↔ name ∈ element'.references)
  | .reference _ | .literal _ | .numeric _ | .prose _ => Iff.rfl
  | .group hbody | .option hbody => Alternation.mem_references_reorders hbody

lemma Repetition.mem_references_reorders {repetition repetition' : Repetition} :
    Repetition.Reorders repetition repetition' →
      (name ∈ repetition.references ↔ name ∈ repetition'.references)
  | .element _ helement => Element.mem_references_reorders helement

lemma Concatenation.mem_references_reorders {branch branch' : Concatenation} :
    Concatenation.Reorders branch branch' →
      (name ∈ Concatenation.references branch ↔ name ∈ Concatenation.references branch')
  | .nil => Iff.rfl
  | .cons hfirst hrest => by
    rw [Concatenation.references, Concatenation.references, List.mem_append, List.mem_append,
      Repetition.mem_references_reorders hfirst, Concatenation.mem_references_reorders hrest]

lemma Alternation.mem_references_reordersInside {body body' : Alternation} :
    Alternation.ReordersInside body body' →
      (name ∈ Alternation.references body ↔ name ∈ Alternation.references body')
  | .nil => Iff.rfl
  | .cons hbranch hrest => by
    rw [Alternation.references, Alternation.references, List.mem_append, List.mem_append,
      Concatenation.mem_references_reorders hbranch,
      Alternation.mem_references_reordersInside hrest]

/-- A body refers to the same names with its branches in another order. -/
lemma Alternation.mem_references_reorders {body body' : Alternation} :
    Alternation.Reorders body body' →
      (name ∈ Alternation.references body ↔ name ∈ Alternation.references body')
  | .permute hinside hperm => by
    rw [Alternation.mem_references_reordersInside hinside, Alternation.mem_references,
      Alternation.mem_references]
    simp only [hperm.mem_iff]

end

end

/-! ### Alike answers -/

/-- Two answers are patterns that are alike, or neither is a pattern. -/
inductive AlikeAnswers :
    Except ExpansionError Pattern → Except ExpansionError Pattern → Prop
  | ok {pattern pattern' : Pattern} (halike : pattern.Alike pattern') :
      AlikeAnswers (.ok pattern) (.ok pattern')
  | error (error error' : ExpansionError) : AlikeAnswers (.error error) (.error error')

namespace AlikeAnswers

variable {a b c : Except ExpansionError Pattern} {f g : Pattern → Except ExpansionError Pattern}

lemma refl (a : Except ExpansionError Pattern) : AlikeAnswers a a := by
  cases a with
  | error error => exact .error error error
  | ok pattern => exact .ok (.refl pattern)

lemma trans (hab : AlikeAnswers a b) (hbc : AlikeAnswers b c) : AlikeAnswers a c := by
  cases hab with
  | error error _ =>
    cases hbc with
    | error _ error' => exact .error error error'
  | ok hab =>
    cases hbc with
    | ok hbc => exact .ok (hab.trans hbc)

lemma exists_ok_iff (hab : AlikeAnswers a b) :
    (∃ pattern, a = .ok pattern) ↔ ∃ pattern, b = .ok pattern := by
  cases hab with
  | ok halike => simp
  | error error error' => simp

lemma bind (hab : AlikeAnswers a b)
    (hfg : ∀ pattern pattern', pattern.Alike pattern' → AlikeAnswers (f pattern) (g pattern')) :
    AlikeAnswers (a >>= f) (b >>= g) := by
  cases hab with
  | error error error' => exact .error error error'
  | ok halike => exact hfg _ _ halike

/-- It does not matter which of two answers is asked for first. -/
lemma bind_comm {f g : Pattern → Pattern → Except ExpansionError Pattern}
    (hfg : ∀ first second, AlikeAnswers (f first second) (g second first)) :
    AlikeAnswers (a >>= fun first => b >>= fun second => f first second)
      (b >>= fun second => a >>= fun first => g second first) := by
  cases a with
  | error error =>
    cases b with
    | error error' => exact .error error error'
    | ok second => exact .error error error
  | ok first =>
    cases b with
    | error error' => exact .error error' error'
    | ok second => exact hfg first second

end AlikeAnswers

section

variable {options : Options} {rule : String}
  {inline inline' : String → Except ExpansionError Pattern}

lemma Alternation.expand_cons_alike {branch branch' : Concatenation} {rest rest' : Alternation}
    (hlength : rest.length = rest'.length)
    (hbranch : AlikeAnswers (Concatenation.expand options rule inline branch)
      (Concatenation.expand options rule inline' branch'))
    (hrest : AlikeAnswers (Alternation.expand options rule inline rest)
      (Alternation.expand options rule inline' rest')) :
    AlikeAnswers (Alternation.expand options rule inline (branch :: rest))
      (Alternation.expand options rule inline' (branch' :: rest')) := by
  -- An alternation of one branch is that branch, and both have one branch or more.
  match rest, rest', hlength with
  | [], [], _ => exact hbranch
  | _ :: _, _ :: _, _ =>
    exact hbranch.bind fun _ _ hfirst => hrest.bind fun _ _ hsecond => .ok (hfirst.union hsecond)

/-- The first two branches may change places. -/
lemma Alternation.expand_swap (first second : Concatenation) (rest : Alternation) :
    AlikeAnswers (Alternation.expand options rule inline (first :: second :: rest))
      (Alternation.expand options rule inline (second :: first :: rest)) := by
  cases rest with
  | nil =>
    simp only [Alternation.expand]
    exact .bind_comm fun a b => .ok (.union_comm a b)
  | cons next rest =>
    simp only [Alternation.expand, bind_assoc, pure_bind]
    refine .bind_comm fun a b => (AlikeAnswers.refl _).bind fun c c' halike => ?_
    have hrest := (Pattern.Alike.refl a).union ((Pattern.Alike.refl b).union halike)
    exact .ok (hrest.trans (.union_left_comm a b c'))

/-- Branches may stand in any order. -/
lemma Alternation.expand_perm {body body' : Alternation} (h : body.Perm body') :
    AlikeAnswers (Alternation.expand options rule inline body)
      (Alternation.expand options rule inline body') := by
  induction h with
  | nil => exact .refl _
  | cons branch hperm ih => exact expand_cons_alike hperm.length_eq (.refl _) ih
  | swap first second rest => exact expand_swap second first rest
  | trans _ _ ih ih' => exact ih.trans ih'

lemma Alternation.ReordersInside.length_eq {body body' : Alternation} :
    Alternation.ReordersInside body body' → body.length = body'.length
  | .nil => rfl
  | .cons _ hrest => congrArg (· + 1) hrest.length_eq

mutual

lemma Element.expand_reorders (hinline : ∀ name, AlikeAnswers (inline name) (inline' name))
    {element element' : Element} : Element.Reorders element element' →
      AlikeAnswers (element.expand options rule inline) (element'.expand options rule inline')
  | .reference name => hinline name
  | .group hbody => Alternation.expand_reorders hinline hbody
  | .option hbody =>
    (Alternation.expand_reorders hinline hbody).bind fun _ _ halike =>
      .ok ((Pattern.Alike.refl .skip).union halike)
  | .literal _ | .numeric _ | .prose _ => .refl _

lemma Repetition.expand_reorders (hinline : ∀ name, AlikeAnswers (inline name) (inline' name))
    {repetition repetition' : Repetition} : Repetition.Reorders repetition repetition' →
      AlikeAnswers (repetition.expand options rule inline)
        (repetition'.expand options rule inline')
  | .element none helement => Element.expand_reorders hinline helement
  | .element (some bounds) helement => by
    simp only [Repetition.expand]
    cases bounds.fault? options with
    | some fault => exact .refl _
    | none =>
      cases bounds.isZero options.countMode with
      | true => exact .refl _
      | false =>
        exact (Element.expand_reorders hinline helement).bind fun _ _ halike =>
          .ok (halike.repeated _ _)

lemma Concatenation.expand_reorders (hinline : ∀ name, AlikeAnswers (inline name) (inline' name))
    {branch branch' : Concatenation} : Concatenation.Reorders branch branch' →
      AlikeAnswers (Concatenation.expand options rule inline branch)
        (Concatenation.expand options rule inline' branch')
  | .nil => .refl _
  | .cons hfirst .nil => Repetition.expand_reorders hinline hfirst
  | .cons hfirst (.cons hnext hrest) =>
    (Repetition.expand_reorders hinline hfirst).bind fun _ _ hfirst =>
      (Concatenation.expand_reorders hinline (.cons hnext hrest)).bind fun _ _ hsecond =>
        .ok (hfirst.seq hsecond)

lemma Alternation.expand_reordersInside
    (hinline : ∀ name, AlikeAnswers (inline name) (inline' name)) {body body' : Alternation} :
    Alternation.ReordersInside body body' →
      AlikeAnswers (Alternation.expand options rule inline body)
        (Alternation.expand options rule inline' body')
  | .nil => .refl _
  | .cons hbranch hrest =>
    Alternation.expand_cons_alike hrest.length_eq
      (Concatenation.expand_reorders hinline hbranch)
      (Alternation.expand_reordersInside hinline hrest)

/-- The answers for a body with its branches in two orders are alike if those for names are. -/
lemma Alternation.expand_reorders (hinline : ∀ name, AlikeAnswers (inline name) (inline' name))
    {body body' : Alternation} : Alternation.Reorders body body' →
      AlikeAnswers (Alternation.expand options rule inline body)
        (Alternation.expand options rule inline' body')
  | .permute hinside hperm =>
    (Alternation.expand_reordersInside hinline hinside).trans (Alternation.expand_perm hperm)

end

end

end AugmentedBnf
