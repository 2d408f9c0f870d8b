import AugmentedBnf.Grammar.References
import AugmentedBnf.Proofs.Expansion.Basic

/-!
# Substitution

Putting bodies in the place of references, each of them in a group of its own. An expansion looks
up the answer for a name where it comes to a reference, so that it makes no difference to it whether
the name is looked up or its body stands there already.

* `Alternation.expand_substitute`: expanding after a substitution is expanding with the answers for
  the bodies that are put in.
* `Alternation.expand_relabel`: the rule that a body is in is told by its faults, and nowhere else.
-/

namespace AugmentedBnf

section

variable (bodies : String → Alternation)

mutual

/-- An element in which every reference is a group of the body given for its name. -/
def Element.substitute : Element → Element
  | .reference name => .group (bodies name)
  | .group body => .group (Alternation.substitute body)
  | .option body => .option (Alternation.substitute body)
  | .literal octets => .literal octets
  | .numeric value => .numeric value
  | .prose octets => .prose octets

def Repetition.substitute : Repetition → Repetition
  | ⟨bounds, element⟩ => ⟨bounds, Element.substitute element⟩

def Concatenation.substitute : Concatenation → Concatenation
  | [] => []
  | repetition :: rest => Repetition.substitute repetition :: Concatenation.substitute rest

def Alternation.substitute : Alternation → Alternation
  | [] => []
  | branch :: rest => Concatenation.substitute branch :: Alternation.substitute rest

end

end

section

variable {bodies bodies' : String → Alternation}

mutual

lemma Element.references_substitute : ∀ element : Element,
    (element.substitute bodies).references =
      element.references.flatMap fun name => Alternation.references (bodies name)
  | .reference name => by
    simp [Element.substitute, Element.references]
  | .group body | .option body => by
    simp only [Element.substitute, Element.references]
    exact Alternation.references_substitute body
  | .literal _ | .numeric _ | .prose _ => rfl

lemma Repetition.references_substitute : ∀ repetition : Repetition,
    (repetition.substitute bodies).references =
      repetition.references.flatMap fun name => Alternation.references (bodies name)
  | ⟨_, element⟩ => Element.references_substitute element

lemma Concatenation.references_substitute : ∀ branch : Concatenation,
    Concatenation.references (Concatenation.substitute bodies branch) =
      (Concatenation.references branch).flatMap fun name => Alternation.references (bodies name)
  | [] => rfl
  | repetition :: rest => by
    simp only [Concatenation.substitute, Concatenation.references, List.flatMap_append]
    rw [Repetition.references_substitute repetition, Concatenation.references_substitute rest]

/-- After a substitution, a body refers to what the bodies that are put in refer to. -/
lemma Alternation.references_substitute : ∀ body : Alternation,
    Alternation.references (Alternation.substitute bodies body) =
      (Alternation.references body).flatMap fun name => Alternation.references (bodies name)
  | [] => rfl
  | branch :: rest => by
    simp only [Alternation.substitute, Alternation.references, List.flatMap_append]
    rw [Concatenation.references_substitute branch, Alternation.references_substitute rest]

end

mutual

lemma Element.substitute_congr : ∀ element : Element,
    (∀ name ∈ element.references, bodies name = bodies' name) →
      element.substitute bodies = element.substitute bodies'
  | .reference name, h => by
    rw [Element.substitute, Element.substitute, h name List.mem_cons_self]
  | .group body, h => by
    rw [Element.substitute, Element.substitute, Alternation.substitute_congr body h]
  | .option body, h => by
    rw [Element.substitute, Element.substitute, Alternation.substitute_congr body h]
  | .literal _, _ | .numeric _, _ | .prose _, _ => rfl

lemma Repetition.substitute_congr : ∀ repetition : Repetition,
    (∀ name ∈ repetition.references, bodies name = bodies' name) →
      repetition.substitute bodies = repetition.substitute bodies'
  | ⟨bounds, element⟩, h => congrArg (Repetition.mk bounds) (Element.substitute_congr element h)

lemma Concatenation.substitute_congr : ∀ branch : Concatenation,
    (∀ name ∈ Concatenation.references branch, bodies name = bodies' name) →
      Concatenation.substitute bodies branch = Concatenation.substitute bodies' branch
  | [], _ => rfl
  | repetition :: rest, h => by
    have hfirst := Repetition.substitute_congr repetition fun name hname =>
      h name (List.mem_append_left _ hname)
    have hrest := Concatenation.substitute_congr rest fun name hname =>
      h name (List.mem_append_right _ hname)
    rw [Concatenation.substitute, Concatenation.substitute, hfirst, hrest]

/-- A substitution depends on the bodies of the names that there are references to. -/
lemma Alternation.substitute_congr : ∀ body : Alternation,
    (∀ name ∈ Alternation.references body, bodies name = bodies' name) →
      Alternation.substitute bodies body = Alternation.substitute bodies' body
  | [], _ => rfl
  | branch :: rest, h => by
    have hfirst := Concatenation.substitute_congr branch fun name hname =>
      h name (List.mem_append_left _ hname)
    have hrest := Alternation.substitute_congr rest fun name hname =>
      h name (List.mem_append_right _ hname)
    rw [Alternation.substitute, Alternation.substitute, hfirst, hrest]

end

end

section

variable {options : Options} {rule : String} {inline : String → Except ExpansionError Pattern}
  {bodies : String → Alternation}

mutual

lemma Element.expand_substitute : ∀ element : Element,
    (element.substitute bodies).expand options rule inline =
      element.expand options rule fun name => Alternation.expand options rule inline (bodies name)
  | .reference name => rfl
  | .group body => Alternation.expand_substitute body
  | .option body => by
    rw [Element.substitute, Element.expand, Element.expand, Alternation.expand_substitute body]
  | .literal _ | .numeric _ | .prose _ => rfl

lemma Repetition.expand_substitute : ∀ repetition : Repetition,
    (repetition.substitute bodies).expand options rule inline =
      repetition.expand options rule fun name =>
        Alternation.expand options rule inline (bodies name)
  | ⟨none, element⟩ => Element.expand_substitute element
  | ⟨some bounds, element⟩ => by
    rw [Repetition.substitute, Repetition.expand, Repetition.expand,
      Element.expand_substitute element]

lemma Concatenation.expand_substitute : ∀ branch : Concatenation,
    Concatenation.expand options rule inline (Concatenation.substitute bodies branch) =
      Concatenation.expand options rule
        (fun name => Alternation.expand options rule inline (bodies name)) branch
  | [] => rfl
  | [repetition] => Repetition.expand_substitute repetition
  | repetition :: next :: rest => by
    have hrest := Concatenation.expand_substitute (next :: rest)
    rw [Concatenation.substitute] at hrest
    simp only [Concatenation.substitute, Concatenation.expand,
      Repetition.expand_substitute repetition, hrest]

/-- Where a body is put in the place of a name, the answer for the name is the answer for the
body. -/
lemma Alternation.expand_substitute : ∀ body : Alternation,
    Alternation.expand options rule inline (Alternation.substitute bodies body) =
      Alternation.expand options rule
        (fun name => Alternation.expand options rule inline (bodies name)) body
  | [] => rfl
  | [branch] => Concatenation.expand_substitute branch
  | branch :: next :: rest => by
    have hrest := Alternation.expand_substitute (next :: rest)
    rw [Alternation.substitute] at hrest
    simp only [Alternation.substitute, Alternation.expand,
      Concatenation.expand_substitute branch, hrest]

end

end

/-! ### Rules that faults are in -/

def ExpansionError.relabel (rule : String) : ExpansionError → ExpansionError
  | .faulty fault _ => .faulty fault rule
  | .endless _ => .endless rule

section

variable {options : Options} {rule other : String}
  {inline : String → Except ExpansionError Pattern}

mutual

lemma Element.expand_relabel : ∀ element : Element,
    (element.expand options rule inline).mapError (.relabel other) =
      element.expand options other fun name => (inline name).mapError (.relabel other)
  | .reference name => rfl
  | .group body => Alternation.expand_relabel body
  | .option body => by
    rw [Element.expand, Element.expand, mapError_bind, Alternation.expand_relabel body]
    rfl
  | .literal _ | .prose _ => rfl
  | .numeric value => by
    simp only [Element.expand]
    cases value.fault? options.rangeMode with
    | none => rfl
    | some fault => rfl

lemma Repetition.expand_relabel : ∀ repetition : Repetition,
    (repetition.expand options rule inline).mapError (.relabel other) =
      repetition.expand options other fun name => (inline name).mapError (.relabel other)
  | ⟨none, element⟩ => Element.expand_relabel element
  | ⟨some bounds, element⟩ => by
    simp only [Repetition.expand]
    cases bounds.fault? options with
    | some fault => rfl
    | none =>
      cases bounds.isZero options.countMode with
      | true => rfl
      | false =>
        rw [← Element.expand_relabel element]
        exact mapError_bind _ _ _

lemma Concatenation.expand_relabel : ∀ branch : Concatenation,
    (Concatenation.expand options rule inline branch).mapError (.relabel other) =
      Concatenation.expand options other
        (fun name => (inline name).mapError (.relabel other)) branch
  | [] => rfl
  | [repetition] => Repetition.expand_relabel repetition
  | repetition :: next :: rest => by
    simp only [Concatenation.expand, mapError_bind, Repetition.expand_relabel repetition,
      Concatenation.expand_relabel (next :: rest)]
    rfl

/-- In another rule a body has the same answer, with the other rule in its faults. -/
lemma Alternation.expand_relabel : ∀ body : Alternation,
    (Alternation.expand options rule inline body).mapError (.relabel other) =
      Alternation.expand options other
        (fun name => (inline name).mapError (.relabel other)) body
  | [] => rfl
  | [branch] => Concatenation.expand_relabel branch
  | branch :: next :: rest => by
    simp only [Alternation.expand, mapError_bind, Concatenation.expand_relabel branch,
      Alternation.expand_relabel (next :: rest)]
    rfl

end

end

end AugmentedBnf
