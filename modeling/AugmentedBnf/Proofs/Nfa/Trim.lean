import AugmentedBnf.Proofs.Nfa.Reachable
import AugmentedBnf.Proofs.Nfa.Thompson

/-!
# Trim automata

No state is allocated in vain: where a pattern asks for an octet out of a list, and no such list is
empty, all states between its entry and its exit lie on walks from the one to the other. Nor does an
edge lead to a state that is not allocated.

* `Pattern.addsTo_connect`: edges lead to the exit or to states between.
* `Pattern.links_connect`: the states between are entered and left again.
* `Nfa.links_ofPattern?`: all states lie on walks from the entry to the one that accepts.
-/

namespace AugmentedBnf

namespace Builder

variable {builder builder₁ builder₂ : Builder} {p q r : StateId}

lemma Extends.reaches (h : builder₁.Extends builder₂) (hreach : Reaches builder₁.states p q) :
    Reaches builder₂.states p q := by
  obtain ⟨word, hwalk⟩ := hreach
  exact ⟨word, h.walk hwalk⟩

/-- One state leads to another, by way of every state that is allocated in between. -/
structure Links (builder builder' : Builder) (entry exit : StateId) : Prop where
  reaches : Reaches builder'.states entry exit
  enters : ∀ {id}, builder.size ≤ id → id < builder'.size → Reaches builder'.states entry id
  leaves : ∀ {id}, builder.size ≤ id → id < builder'.size → Reaches builder'.states id exit

namespace Links

/-- An edge between two states needs no other state. -/
lemma of_joins {label : Option Octet} (hsize : builder₁.size = builder.size)
    (hedge : Joins builder₁.states p label q) : builder.Links builder₁ p q where
  reaches := .of_joins hedge
  enters hle hlt := absurd hlt (by omega)
  leaves hle hlt := absurd hlt (by omega)

lemma addEpsilon? (h : builder.addEpsilon? p q = some builder₁) : builder.Links builder₁ p q :=
  .of_joins (size_addEpsilon? h) ((joins_addEpsilon? h).mpr (.inr ⟨rfl, rfl, rfl⟩))

/-- Links may follow each other. -/
lemma trans (h₁ : builder.Links builder₁ p q) (h₂ : builder₁.Links builder₂ q r)
    (hext : builder₁.Extends builder₂) : builder.Links builder₂ p r where
  reaches := (hext.reaches h₁.reaches).trans h₂.reaches
  enters {id} hle hlt := by
    rcases lt_or_ge id builder₁.size with hold | hnew
    · exact hext.reaches (h₁.enters hle hold)
    · exact (hext.reaches h₁.reaches).trans (h₂.enters hnew hlt)
  leaves {id} hle hlt := by
    rcases lt_or_ge id builder₁.size with hold | hnew
    · exact (hext.reaches (h₁.leaves hle hold)).trans h₂.reaches
    · exact h₂.leaves hnew hlt

/-- Links may share their ends. -/
lemma union (h₁ : builder.Links builder₁ p q) (h₂ : builder₁.Links builder₂ p q)
    (hext : builder₁.Extends builder₂) : builder.Links builder₂ p q where
  reaches := h₂.reaches
  enters {id} hle hlt := by
    rcases lt_or_ge id builder₁.size with hold | hnew
    · exact hext.reaches (h₁.enters hle hold)
    · exact h₂.enters hnew hlt
  leaves {id} hle hlt := by
    rcases lt_or_ge id builder₁.size with hold | hnew
    · exact hext.reaches (h₁.leaves hle hold)
    · exact h₂.leaves hnew hlt

/-- The state where two links meet may be allocated with them. -/
lemma through_addState (h : builder.addState.2.Links builder₁ p builder.size)
    (h' : builder₁.Links builder₂ builder.size r) (hext : builder₁.Extends builder₂) :
    builder.Links builder₂ p r := by
  have hlinks := h.trans h' hext
  refine ⟨hlinks.reaches, fun {id} hle hlt => ?_, fun {id} hle hlt => ?_⟩
  all_goals rcases hle.eq_or_lt with rfl | hnew
  · exact hext.reaches h.reaches
  · exact hlinks.enters (builder.size_addState ▸ hnew) hlt
  · exact h'.reaches
  · exact hlinks.leaves (builder.size_addState ▸ hnew) hlt

end Links

/-- Every edge that is added leads to one state or to a state that is allocated in between. -/
structure AddsTo (builder builder' : Builder) (exit : StateId) : Prop where
  target : ∀ {p label q}, Joins builder'.states p label q →
    Joins builder.states p label q ∨ q = exit ∨ builder.size ≤ q ∧ q < builder'.size

namespace AddsTo

lemma addEpsilon? (h : builder.addEpsilon? p q = some builder₁) : builder.AddsTo builder₁ q where
  target hedge := ((joins_addEpsilon? h).mp hedge).imp_right fun hadded => .inl hadded.2.2

lemma trans (h₁ : builder.AddsTo builder₁ r) (h₂ : builder₁.AddsTo builder₂ r)
    (hext₁ : builder.Extends builder₁) (hext₂ : builder₁.Extends builder₂) :
    builder.AddsTo builder₂ r where
  target hedge := by
    -- An edge of the last builder is one that was added last, or an edge of the middle one.
    rcases h₂.target hedge with hedge | hexit | ⟨hle, hlt⟩
    · rcases h₁.target hedge with hold | hexit | ⟨hle, hlt⟩
      · exact .inl hold
      · exact .inr (.inl hexit)
      · exact .inr (.inr ⟨hle, hlt.trans_le hext₂.size_le⟩)
    · exact .inr (.inl hexit)
    · exact .inr (.inr ⟨hext₁.size_le.trans hle, hlt⟩)

/-- Edges may first lead to a state that is allocated for them. -/
lemma through_addState (h₁ : builder.addState.2.AddsTo builder₁ builder.size)
    (h₂ : builder₁.AddsTo builder₂ r) (hext₁ : builder.addState.2.Extends builder₁)
    (hext₂ : builder₁.Extends builder₂) : builder.AddsTo builder₂ r where
  target hedge := by
    have hsize : builder.size + 1 ≤ builder₁.size := builder.size_addState ▸ hext₁.size_le
    rcases h₂.target hedge with hedge | hexit | ⟨hle, hlt⟩
    · rcases h₁.target hedge with hold | rfl | ⟨hle, hlt⟩
      · exact .inl (joins_addState.mp hold)
      · exact .inr (.inr ⟨le_rfl, Nat.lt_of_lt_of_le hsize hext₂.size_le⟩)
      · exact .inr (.inr ⟨extends_addState.size_le.trans hle, hlt.trans_le hext₂.size_le⟩)
    · exact .inr (.inl hexit)
    · exact .inr (.inr ⟨(Nat.le_of_succ_le hsize).trans hle, hlt⟩)

end AddsTo

end Builder

namespace Pattern

variable {builder builder' : Builder} {entry exit : StateId}

/-! ### Connecting -/

/-- A pattern does not ask for an octet out of an empty list. -/
def NoEmptyClass : Pattern → Prop
  | skip => True
  | oneOf octets => octets ≠ []
  | seq first second | union first second => first.NoEmptyClass ∧ second.NoEmptyClass
  | star body | plus body => body.NoEmptyClass

/-- An edge that is added for a pattern leads to its exit or to a state allocated in between. -/
lemma addsTo_connect {pattern : Pattern}
    (h : pattern.connect entry exit builder = some builder') : builder.AddsTo builder' exit := by
  induction pattern generalizing entry exit builder builder' with
  | skip => exact .addEpsilon? h
  | oneOf octets =>
    obtain ⟨-, hjoins⟩ := Builder.joins_foldlM_addTransition? h
    exact ⟨fun hedge => ((hjoins _ _ _).mp hedge).imp_right fun hadded => .inl hadded.2.1⟩
  | seq first second ihf ihs =>
    obtain ⟨next, hfirst, hsecond⟩ := connect_seq.mp h
    exact (ihf hfirst).through_addState (ihs hsecond) (extends_connect hfirst)
      (extends_connect hsecond)
  | union first second ihf ihs =>
    obtain ⟨next, hfirst, hsecond⟩ := connect_union.mp h
    exact (ihf hfirst).trans (ihs hsecond) (extends_connect hfirst) (extends_connect hsecond)
  | star body ih =>
    obtain ⟨next, hskip, hloop⟩ := connect_star.mp h
    have hadds : builder.AddsTo next exit := .addEpsilon? hskip
    exact hadds.trans (ih hloop) (Builder.extends_addEpsilon? hskip) (extends_connect hloop)
  | plus body ih =>
    obtain ⟨next, honce, hloop⟩ := connect_plus.mp h
    exact (ih honce).trans (ih hloop) (extends_connect honce) (extends_connect hloop)

/-- All states that are allocated for a pattern link its entry and its exit. -/
lemma links_connect {pattern : Pattern} (hpattern : pattern.NoEmptyClass)
    (h : pattern.connect entry exit builder = some builder') :
    builder.Links builder' entry exit := by
  induction pattern generalizing entry exit builder builder' with
  | skip => exact .addEpsilon? h
  | oneOf octets =>
    obtain ⟨octet, hoctet⟩ := List.exists_mem_of_ne_nil _ hpattern
    obtain ⟨hsize, hjoins⟩ := Builder.joins_foldlM_addTransition? h
    exact .of_joins hsize ((hjoins _ _ _).mpr (.inr ⟨rfl, rfl, octet, hoctet, rfl⟩))
  | seq first second ihf ihs =>
    obtain ⟨next, hfirst, hsecond⟩ := connect_seq.mp h
    exact (ihf hpattern.1 hfirst).through_addState (ihs hpattern.2 hsecond)
      (extends_connect hsecond)
  | union first second ihf ihs =>
    obtain ⟨next, hfirst, hsecond⟩ := connect_union.mp h
    exact (ihf hpattern.1 hfirst).union (ihs hpattern.2 hsecond) (extends_connect hsecond)
  | star body ih =>
    obtain ⟨next, hskip, hloop⟩ := connect_star.mp h
    have hlinks : builder.Links next entry exit := .addEpsilon? hskip
    -- The loop begins and ends at the exit, so its states are linked to the exit both ways.
    exact hlinks.trans (ih hpattern hloop) (extends_connect hloop)
  | plus body ih =>
    obtain ⟨next, honce, hloop⟩ := connect_plus.mp h
    exact (ih hpattern honce).trans (ih hpattern hloop) (extends_connect hloop)

end Pattern

namespace Nfa

variable {pattern : Pattern} {nfa : Nfa} {id : StateId}

lemma isAccepting_ofPattern? (h : Nfa.ofPattern? pattern = some nfa) :
    nfa.isAccepting id ↔ id = 1 := by
  obtain ⟨builder, -, rfl⟩ := ofPattern?_eq_some h
  exact Builder.isAccepting_finish

/-- The entry is allocated first, and then the state that accepts. -/
lemma entry_ofPattern? (h : Nfa.ofPattern? pattern = some nfa) : nfa.entry = 0 ∧ 1 < nfa.size := by
  obtain ⟨builder, hconnect, rfl⟩ := ofPattern?_eq_some h
  exact ⟨rfl, (Pattern.extends_connect hconnect).size_le⟩

/-- No edge leads to a state that is not allocated, and none leads to the entry. -/
lemma target_ofPattern? (h : Nfa.ofPattern? pattern = some nfa) {p q : StateId}
    {label : Option Octet} (hedge : Joins nfa.states p label q) : 0 < q ∧ q < nfa.size := by
  have hexit := (entry_ofPattern? h).2
  obtain ⟨builder, hconnect, rfl⟩ := ofPattern?_eq_some h
  -- Entry and exit are the only states at first, so an edge leads to the exit or further.
  rcases (Pattern.addsTo_connect hconnect).target hedge with hold | rfl | ⟨hle, hlt⟩
  · simp at hold
  · exact ⟨Nat.one_pos, hexit⟩
  · exact ⟨Nat.lt_of_lt_of_le Nat.two_pos hle, hlt⟩

/-- The automaton of a pattern without empty classes has walks from its entry to all of its states
and from there to the only one that accepts. -/
lemma links_ofPattern? (hpattern : pattern.NoEmptyClass) (h : Nfa.ofPattern? pattern = some nfa)
    (hid : id < nfa.size) : Reaches nfa.states nfa.entry id ∧ Reaches nfa.states id 1 := by
  obtain ⟨builder, hconnect, rfl⟩ := ofPattern?_eq_some h
  have hlinks := Pattern.links_connect hpattern hconnect
  change Reaches builder.states 0 id ∧ Reaches builder.states id 1
  match id with
  | 0 => exact ⟨.refl 0, hlinks.reaches⟩
  | 1 => exact ⟨hlinks.reaches, .refl 1⟩
  | id + 2 => exact ⟨hlinks.enters (Nat.le_add_left 2 id) hid,
      hlinks.leaves (Nat.le_add_left 2 id) hid⟩

/-- Walks from the entry lead to all states that are allocated, and to no others. -/
lemma reaches_ofPattern? (hpattern : pattern.NoEmptyClass)
    (h : Nfa.ofPattern? pattern = some nfa) : Reaches nfa.states nfa.entry id ↔ id < nfa.size := by
  refine ⟨fun hreach => ?_, fun hid => (links_ofPattern? hpattern h hid).1⟩
  obtain ⟨hentry, hexit⟩ := entry_ofPattern? h
  have hlt : nfa.entry < nfa.size := hentry ▸ Nat.zero_lt_of_lt hexit
  exact hreach.induction hlt fun _ _ _ _ hedge => (target_ofPattern? h hedge).2

end Nfa

end AugmentedBnf
