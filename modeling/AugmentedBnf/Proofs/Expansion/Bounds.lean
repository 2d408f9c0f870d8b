import AugmentedBnf.Proofs.Expansion.Inlining

/-!
# Other bounds

The bounds in rules may be put in the place of others. An expansion reads a minimum and a maximum
off them, and whether they ask for no copy at all, so that bounds which agree on these make no
difference to it, even if they are read under another count mode.

* `Repeat.ReadsAs`: bounds that are read alike, each under its own count mode.
* `RegularRules.expand_mapBounds`: rules with such bounds expand alike.
-/

namespace AugmentedBnf

mutual

/-- The bounds in an element, from left to right, at any depth of its own groups and options. -/
def Element.allBounds : Element → List Repeat
  | .group body | .option body => Alternation.allBounds body
  | .reference _ | .literal _ | .numeric _ | .prose _ => []

/-- The bounds in a repetition, its own in front. -/
def Repetition.allBounds : Repetition → List Repeat
  | ⟨bounds, element⟩ => bounds.toList ++ Element.allBounds element

def Concatenation.allBounds : Concatenation → List Repeat
  | [] => []
  | repetition :: rest => Repetition.allBounds repetition ++ Concatenation.allBounds rest

def Alternation.allBounds : Alternation → List Repeat
  | [] => []
  | branch :: rest => Concatenation.allBounds branch ++ Alternation.allBounds rest

end

section

variable (f : Repeat → Repeat)

mutual

/-- An element with other bounds in the place of those in it. -/
def Element.mapBounds : Element → Element
  | .reference name => .reference name
  | .group body => .group (Alternation.mapBounds body)
  | .option body => .option (Alternation.mapBounds body)
  | .literal octets => .literal octets
  | .numeric value => .numeric value
  | .prose octets => .prose octets

def Repetition.mapBounds : Repetition → Repetition
  | ⟨bounds, element⟩ => ⟨bounds.map f, Element.mapBounds element⟩

def Concatenation.mapBounds : Concatenation → Concatenation
  | [] => []
  | repetition :: rest => Repetition.mapBounds repetition :: Concatenation.mapBounds rest

def Alternation.mapBounds : Alternation → Alternation
  | [] => []
  | branch :: rest => Concatenation.mapBounds branch :: Alternation.mapBounds rest

end

def Rule.mapBounds (rule : Rule) : Rule := { rule with body := Alternation.mapBounds f rule.body }

end

section

variable {f : Repeat → Repeat}

mutual

lemma Element.references_mapBounds : ∀ element : Element,
    (element.mapBounds f).references = element.references
  | .reference _ | .literal _ | .numeric _ | .prose _ => rfl
  | .group body | .option body => Alternation.references_mapBounds body

lemma Repetition.references_mapBounds : ∀ repetition : Repetition,
    (repetition.mapBounds f).references = repetition.references
  | ⟨_, element⟩ => Element.references_mapBounds element

lemma Concatenation.references_mapBounds : ∀ branch : Concatenation,
    Concatenation.references (Concatenation.mapBounds f branch) = Concatenation.references branch
  | [] => rfl
  | repetition :: rest => by
    rw [Concatenation.mapBounds, Concatenation.references, Concatenation.references,
      Repetition.references_mapBounds repetition, Concatenation.references_mapBounds rest]

/-- A body refers to the same names with other bounds. -/
lemma Alternation.references_mapBounds : ∀ body : Alternation,
    Alternation.references (Alternation.mapBounds f body) = Alternation.references body
  | [] => rfl
  | branch :: rest => by
    rw [Alternation.mapBounds, Alternation.references, Alternation.references,
      Concatenation.references_mapBounds branch, Alternation.references_mapBounds rest]

end

end

/-! ### Bounds that are read alike -/

/-- Bounds are read under a count mode as others are read under another one. -/
structure Repeat.ReadsAs (mode mode' : CountMode) (bounds bounds' : Repeat) : Prop where
  min : bounds.min = bounds'.min
  maximum : bounds.maximum mode = bounds'.maximum mode'
  isZero : bounds.isZero mode = bounds'.isZero mode'

/-- Bounds that are read alike have the same fault. -/
lemma Repeat.ReadsAs.fault?_eq {mode mode' : CountMode} {bounds bounds' : Repeat}
    (h : ReadsAs mode mode' bounds bounds') (options : Options) :
    bounds.fault? { options with countMode := mode } =
      bounds'.fault? { options with countMode := mode' } := by
  simp only [fault?, h.maximum, h.min]

section

variable {mode mode' : CountMode} {f : Repeat → Repeat} {options : Options} {rule : String}
  {inline : String → Except ExpansionError Pattern}

mutual

lemma Element.expand_mapBounds : ∀ element : Element,
    (∀ bounds ∈ element.allBounds, bounds.ReadsAs mode mode' (f bounds)) →
      element.expand { options with countMode := mode } rule inline =
        (element.mapBounds f).expand { options with countMode := mode' } rule inline
  | .reference _, _ | .literal _, _ | .numeric _, _ | .prose _, _ => rfl
  | .group body, h => Alternation.expand_mapBounds body h
  | .option body, h => by
    rw [Element.mapBounds, Element.expand, Element.expand, Alternation.expand_mapBounds body h]

lemma Repetition.expand_mapBounds : ∀ repetition : Repetition,
    (∀ bounds ∈ repetition.allBounds, bounds.ReadsAs mode mode' (f bounds)) →
      repetition.expand { options with countMode := mode } rule inline =
        (repetition.mapBounds f).expand { options with countMode := mode' } rule inline
  | ⟨none, element⟩, h => Element.expand_mapBounds element h
  | ⟨some bounds, element⟩, h => by
    have hown := h bounds List.mem_cons_self
    have helement := Element.expand_mapBounds element fun inner hinner =>
      h inner (List.mem_cons_of_mem _ hinner)
    simp only [Repetition.mapBounds, Option.map_some, Repetition.expand, hown.fault?_eq,
      hown.isZero, hown.min, hown.maximum, helement]

lemma Concatenation.expand_mapBounds : ∀ branch : Concatenation,
    (∀ bounds ∈ Concatenation.allBounds branch, bounds.ReadsAs mode mode' (f bounds)) →
      Concatenation.expand { options with countMode := mode } rule inline branch =
        Concatenation.expand { options with countMode := mode' } rule inline
          (Concatenation.mapBounds f branch)
  | [], _ => rfl
  | [repetition], h => Repetition.expand_mapBounds repetition fun bounds hbounds =>
    h bounds (List.mem_append_left _ hbounds)
  | repetition :: next :: rest, h => by
    have hfirst := Repetition.expand_mapBounds repetition fun bounds hbounds =>
      h bounds (List.mem_append_left _ hbounds)
    have hrest := Concatenation.expand_mapBounds (next :: rest) fun bounds hbounds =>
      h bounds (List.mem_append_right _ hbounds)
    rw [Concatenation.mapBounds] at hrest
    simp only [Concatenation.mapBounds, Concatenation.expand, hfirst, hrest]

/-- A body expands as it does with other bounds that are read alike. -/
lemma Alternation.expand_mapBounds : ∀ body : Alternation,
    (∀ bounds ∈ Alternation.allBounds body, bounds.ReadsAs mode mode' (f bounds)) →
      Alternation.expand { options with countMode := mode } rule inline body =
        Alternation.expand { options with countMode := mode' } rule inline
          (Alternation.mapBounds f body)
  | [], _ => rfl
  | [branch], h => Concatenation.expand_mapBounds branch fun bounds hbounds =>
    h bounds (List.mem_append_left _ hbounds)
  | branch :: next :: rest, h => by
    have hfirst := Concatenation.expand_mapBounds branch fun bounds hbounds =>
      h bounds (List.mem_append_left _ hbounds)
    have hrest := Alternation.expand_mapBounds (next :: rest) fun bounds hbounds =>
      h bounds (List.mem_append_right _ hbounds)
    rw [Alternation.mapBounds] at hrest
    simp only [Alternation.mapBounds, Alternation.expand, hfirst, hrest]

end

end

/-- A rule has other bounds in the place of those of another rule, and they are read alike. -/
structure Rule.ReadsAs (mode mode' : CountMode) (f : Repeat → Repeat) (rule rule' : Rule) :
    Prop where
  eq_mapBounds : rule' = rule.mapBounds f
  bounds : ∀ bounds ∈ Alternation.allBounds rule.body, bounds.ReadsAs mode mode' (f bounds)

section

variable {mode mode' : CountMode} {f : Repeat → Repeat}

lemma keepsNames_readsAs : KeepsNames (Rule.ReadsAs mode mode' f) where
  name h := by
    obtain ⟨rfl, -⟩ := h
    rfl
  references h name := by
    obtain ⟨rfl, -⟩ := h
    rw [Rule.mapBounds, Alternation.references_mapBounds]

lemma Rule.ReadsAs.marker {rule rule' : Rule} (h : rule.ReadsAs mode mode' f rule') :
    rule.marker = rule'.marker := by
  obtain ⟨rfl, -⟩ := h
  rfl

namespace RegularRules

variable {regular regular' : RegularRules} {options : Options}

/-- At the same depth, names have the same answers. -/
lemma inline_mapBounds
    (h : List.Forall₂ (Rule.ReadsAs mode mode' f) regular.rules regular'.rules) (depth : Nat)
    (rule name : String) :
    regular.inline { options with countMode := mode } depth rule name =
      regular'.inline { options with countMode := mode' } depth rule name := by
  refine inline_rel keepsNames_readsAs Rule.ReadsAs.marker (fun _ => rfl)
    (fun {found found' inline inline'} hreads hinline => ?_) h depth rule name
  rw [funext hinline, hreads.eq_mapBounds]
  exact Alternation.expand_mapBounds found.body hreads.bounds

/-- Rules with other bounds that are read alike expand alike. -/
lemma expand_mapBounds {rules : List Rule}
    (h : ∀ rule ∈ rules, ∀ bounds ∈ Alternation.allBounds rule.body,
      bounds.ReadsAs mode mode' (f bounds)) (root : String) :
    (classify rules).regular.expand { options with countMode := mode } root =
      (classify (rules.map (Rule.mapBounds f))).regular.expand
        { options with countMode := mode' } root := by
  have hrules : List.Forall₂ (Rule.ReadsAs mode mode' f) rules (rules.map (Rule.mapBounds f)) := by
    rw [List.forall₂_map_right_iff, List.forall₂_same]
    exact fun rule hrule => ⟨rfl, h rule hrule⟩
  have hregular := classify_regular_rel keepsNames_readsAs hrules
  rw [expand, expand, size, size, hregular.length_eq]
  exact inline_mapBounds hregular _ root root

end RegularRules

end

end AugmentedBnf
