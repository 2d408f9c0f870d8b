import AugmentedBnf.Expansion
import AugmentedBnf.Proofs.Nfa.Operations
import AugmentedBnf.Proofs.Nfa.Thompson

/-!
# Operations performed on the way

States can be allocated and edges be added while it is still open whether all of a body can be
built. A fault then ends the construction, and the operations up to it have been performed. Here
parts of a construction tell their operations, so that those before a fault are known, too.

A part that is given two allocated states adds edges only from states that are allocated by then,
however it ends. If it is the part of a pattern, no fault ends it, and its operations build what the
pattern connects.

* `Link.IsSound.seq` and the like: what parts keep to, their composites keep to.
* `Pattern.run?_emit`: the operations of a pattern connect it.
-/

namespace AugmentedBnf

open Operation

/-- A step of a construction. It knows the operations performed before it and performs more. -/
abbrev Emitter := ExceptT ExpansionError (StateM (List Operation))

namespace Emitter

variable {α β : Type} {step : Emitter α} {next : α → Emitter β} {operations : List Operation}
  {operation : Operation} {value : α} {error : ExpansionError}

/-- What a step that comes after some operations ends in, and all operations performed by then. -/
def after (step : Emitter α) (operations : List Operation) :
    Except ExpansionError α × List Operation :=
  StateT.run (ExceptT.run step) operations

def perform (operation : Operation) : Emitter Unit := modify (· ++ [operation])

def allocate : Emitter StateId := do
  let operations ← get
  perform .addState
  return allocations operations

lemma after_perform : (perform operation).after operations = (.ok (), operations ++ [operation]) :=
  rfl

lemma after_allocate :
    allocate.after operations = (.ok (allocations operations), operations ++ [.addState]) :=
  rfl

lemma after_bind_of_ok (h : (step.after operations).1 = .ok value) :
    (step >>= next).after operations = (next value).after (step.after operations).2 := by
  rw [after, ExceptT.run_bind, StateT.run_bind, ← after]
  generalize step.after operations = result at h
  obtain ⟨outcome, performed⟩ := result
  obtain rfl : outcome = .ok value := h
  rfl

lemma after_bind_of_error (h : (step.after operations).1 = .error error) :
    (step >>= next).after operations = (.error error, (step.after operations).2) := by
  rw [after, ExceptT.run_bind, StateT.run_bind, ← after]
  generalize step.after operations = result at h
  obtain ⟨outcome, performed⟩ := result
  obtain rfl : outcome = .error error := h
  rfl

/-- A step keeps to edges from states that are allocated by then, however it ends. -/
structure Keeps (step : Emitter α) (operations : List Operation) : Prop where
  allocatesFirst : AllocatesFirst (step.after operations).2
  allocations_le : allocations operations ≤ allocations (step.after operations).2

lemma Keeps.bind (hstep : step.Keeps operations)
    (hnext : ∀ value, (step.after operations).1 = .ok value →
      (next value).Keeps (step.after operations).2) :
    (step >>= next).Keeps operations := by
  cases hend : (step.after operations).1 with
  | error error =>
    constructor
    · rw [after_bind_of_error hend]
      exact hstep.allocatesFirst
    · rw [after_bind_of_error hend]
      exact hstep.allocations_le
  | ok value =>
    have hvalue := hnext value hend
    constructor
    · rw [after_bind_of_ok hend]
      exact hvalue.allocatesFirst
    · rw [after_bind_of_ok hend]
      exact hstep.allocations_le.trans hvalue.allocations_le

lemma keeps_perform (h : AllocatesFirst operations)
    (hsource : ∀ source ∈ operation.source?, source < allocations operations) :
    (perform operation).Keeps operations := by
  constructor
  · exact allocatesFirst_concat.mpr ⟨h, hsource⟩
  · rw [after_perform, allocations_concat]
    exact Nat.le_add_right _ _

/-- A new state can be used from then on. -/
lemma Keeps.allocate_bind {next : StateId → Emitter β} (h : AllocatesFirst operations)
    (hnext : ∀ {performed}, AllocatesFirst performed →
      allocations performed = allocations operations + 1 →
      (next (allocations operations)).Keeps performed) :
    (allocate >>= next).Keeps operations := by
  have hallocate : (perform .addState).Keeps operations := keeps_perform h (by simp [source?])
  refine Keeps.bind ⟨hallocate.allocatesFirst, hallocate.allocations_le⟩ fun value hvalue => ?_
  obtain rfl : allocations operations = value := Except.ok.inj hvalue
  exact hnext hallocate.allocatesFirst (by simp [after_allocate, allocations_concat])

end Emitter

open Emitter

/-! ### Links -/

/-- A part of a construction that goes from an entry to an exit. -/
abbrev Link := (entry exit : StateId) → Emitter Unit

namespace Link

def skip : Link := fun entry exit => perform (.addEpsilon entry exit)

def oneOf (octets : List Octet) : Link := fun entry exit =>
  octets.forM fun octet => perform (.addTransition entry octet exit)

/-- One part and then another one, with a state of their own between them. -/
def seq (first second : Link) : Link := fun entry exit => do
  let middle ← allocate
  first entry middle
  second middle exit

def union (first second : Link) : Link := fun entry exit => do
  first entry exit
  second entry exit

/-- A way around a part, which is then a loop at the exit. -/
def star (body : Link) : Link := fun entry exit => do
  perform (.addEpsilon entry exit)
  body exit exit

/-- A part, and once more as a loop at the exit. -/
def plus (body : Link) : Link := fun entry exit => do
  body entry exit
  body exit exit

def fail (error : ExpansionError) : Link := fun _ _ => throw error

/-- Copies one after the other, each into a state of its own. The state behind the last one. -/
def chain (body : Link) : Nat → StateId → Emitter StateId
  | 0, source => return source
  | count + 1, source => do
    let next ← allocate
    body source next
    chain body count next

def copies (count : Nat) (body last : Link) : Link := fun entry exit => do
  last (← chain body count entry) exit

/-- One copy and as many more as are asked for, with a way to the exit before each of them. -/
def optionalChain (body : Link) : Nat → Link
  | 0 => fun entry exit => do
    perform (.addEpsilon entry exit)
    body entry exit
  | more + 1 => fun entry exit => do
    perform (.addEpsilon entry exit)
    let next ← allocate
    body entry next
    optionalChain body more next exit

def repeated (min : Nat) (max : Option Nat) (body : Link) : Link :=
  match max with
  | none => if min = 0 then star body else copies (min - 1) body (plus body)
  | some max =>
    if min = 0 then optionalChain body (max - 1)
    else if min = max then copies (max - 1) body body
    else copies min body (optionalChain body (max - min - 1))

variable {body first second last : Link} {error : ExpansionError} {count : Nat}

/-- Copies are parts one after the other. -/
lemma copies_eq : copies count body last = Nat.repeat (seq body) count last := by
  induction count with
  | zero =>
    funext entry exit
    simp [copies, chain, Nat.repeat]
  | succ count ih =>
    funext entry exit
    simp [copies, chain, Nat.repeat, ← ih, seq]

lemma optionalChain_eq : optionalChain body count =
    Nat.repeat (fun rest => union skip (seq body rest)) count (union skip body) := by
  induction count with
  | zero => rfl
  | succ count ih =>
    rw [Nat.repeat, ← ih]
    rfl

/-- What all parts have that composites keep from their parts, repetitions have. -/
lemma repeated_induction {P : Link → Prop} (hskip : P skip)
    (hseq : ∀ {first second}, P first → P second → P (seq first second))
    (hunion : ∀ {first second}, P first → P second → P (union first second))
    (hstar : P (star body)) (hplus : P (plus body)) (hbody : P body) (min : Nat)
    (max : Option Nat) : P (repeated min max body) := by
  -- Copies put the body in front once more each time, whatever the last one is.
  have hcopies : ∀ count last, P last → P (copies count body last) := by
    intro count last hlast
    rw [copies_eq]
    induction count with
    | zero => exact hlast
    | succ count ih => exact hseq hbody ih
  have hoptional : ∀ count, P (optionalChain body count) := by
    intro count
    rw [optionalChain_eq]
    induction count with
    | zero => exact hunion hskip hbody
    | succ count ih => exact hunion hskip (hseq hbody ih)
  cases max with
  | none =>
    rw [repeated]
    split_ifs
    · exact hstar
    · exact hcopies _ _ hplus
  | some max =>
    rw [repeated]
    split_ifs
    · exact hoptional _
    · exact hcopies _ _ hbody
    · exact hcopies _ _ (hoptional _)

/-- Between allocated states a part keeps to edges from states that are allocated by then. -/
def IsSound (link : Link) : Prop :=
  ∀ ⦃entry exit : StateId⦄ ⦃operations : List Operation⦄, AllocatesFirst operations →
    entry < allocations operations → exit < allocations operations →
    (link entry exit).Keeps operations

lemma isSound_skip : skip.IsSound := by
  intro entry exit operations h hentry hexit
  exact keeps_perform h (by simpa [source?] using hentry)

lemma isSound_oneOf (octets : List Octet) : (oneOf octets).IsSound := by
  intro entry exit operations h hentry hexit
  induction octets generalizing operations with
  | nil => exact ⟨h, le_rfl⟩
  | cons octet octets ih =>
    have hedge : (perform (.addTransition entry octet exit)).Keeps operations :=
      keeps_perform h (by simpa [source?] using hentry)
    -- The states stay allocated whatever else the part allocates.
    refine hedge.bind fun _ _ => ih hedge.allocatesFirst ?_ ?_
    · exact hentry.trans_le hedge.allocations_le
    · exact hexit.trans_le hedge.allocations_le

lemma isSound_fail (error : ExpansionError) : (fail error).IsSound := by
  intro entry exit operations h hentry hexit
  exact ⟨h, le_rfl⟩

lemma IsSound.seq (hfirst : first.IsSound) (hsecond : second.IsSound) :
    (seq first second).IsSound := by
  intro entry exit operations h hentry hexit
  refine Keeps.allocate_bind h fun {performed} hperformed hallocations => ?_
  have hmore : allocations operations < allocations performed := by omega
  have hpart := hfirst hperformed (hentry.trans hmore) hmore
  refine hpart.bind fun _ _ => hsecond hpart.allocatesFirst ?_ ?_
  · exact hmore.trans_le hpart.allocations_le
  · exact (hexit.trans hmore).trans_le hpart.allocations_le

lemma IsSound.union (hfirst : first.IsSound) (hsecond : second.IsSound) :
    (union first second).IsSound := by
  intro entry exit operations h hentry hexit
  have hpart := hfirst h hentry hexit
  refine hpart.bind fun _ _ => hsecond hpart.allocatesFirst ?_ ?_
  · exact hentry.trans_le hpart.allocations_le
  · exact hexit.trans_le hpart.allocations_le

lemma IsSound.star (hbody : body.IsSound) : (star body).IsSound := by
  intro entry exit operations h hentry hexit
  have hedge := isSound_skip h hentry hexit
  have hexit' := hexit.trans_le hedge.allocations_le
  exact hedge.bind fun _ _ => hbody hedge.allocatesFirst hexit' hexit'

lemma IsSound.plus (hbody : body.IsSound) : (plus body).IsSound := by
  intro entry exit operations h hentry hexit
  have honce := hbody h hentry hexit
  have hexit' := hexit.trans_le honce.allocations_le
  exact honce.bind fun _ _ => hbody honce.allocatesFirst hexit' hexit'

lemma IsSound.repeated (hbody : body.IsSound) (min : Nat) (max : Option Nat) :
    (repeated min max body).IsSound :=
  repeated_induction (P := IsSound) isSound_skip IsSound.seq IsSound.union hbody.star hbody.plus
    hbody min max

/-! ### Faults -/

/-- Whatever comes before a part, it ends in the same way. -/
def EndsIn (link : Link) (outcome : Except ExpansionError Unit) : Prop :=
  ∀ entry exit operations, ((link entry exit).after operations).1 = outcome

variable {outcome : Except ExpansionError Unit}

lemma endsIn_skip : skip.EndsIn (.ok ()) := fun _ _ _ => rfl

lemma endsIn_oneOf (octets : List Octet) : (oneOf octets).EndsIn (.ok ()) := by
  intro entry exit operations
  induction octets generalizing operations with
  | nil => rfl
  | cons octet octets ih => exact ih _

lemma endsIn_fail : (fail error).EndsIn (.error error) := fun _ _ _ => rfl

lemma EndsIn.seq (hfirst : first.EndsIn (.ok ())) (hsecond : second.EndsIn outcome) :
    (seq first second).EndsIn outcome := by
  intro entry exit operations
  rw [Link.seq, after_bind_of_ok (congrArg Prod.fst after_allocate),
    after_bind_of_ok (hfirst entry _ _)]
  exact hsecond _ exit _

lemma EndsIn.seq_of_error (hfirst : first.EndsIn (.error error)) :
    (Link.seq first second).EndsIn (.error error) := by
  intro entry exit operations
  rw [Link.seq, after_bind_of_ok (congrArg Prod.fst after_allocate),
    after_bind_of_error (hfirst entry _ _)]

lemma EndsIn.union (hfirst : first.EndsIn (.ok ())) (hsecond : second.EndsIn outcome) :
    (union first second).EndsIn outcome := by
  intro entry exit operations
  rw [Link.union, after_bind_of_ok (hfirst entry exit operations)]
  exact hsecond entry exit _

lemma EndsIn.union_of_error (hfirst : first.EndsIn (.error error)) :
    (Link.union first second).EndsIn (.error error) := by
  intro entry exit operations
  rw [Link.union, after_bind_of_error (hfirst entry exit operations)]

lemma EndsIn.star (hbody : body.EndsIn outcome) : (star body).EndsIn outcome := by
  intro entry exit operations
  exact hbody exit exit _

lemma EndsIn.plus (hbody : body.EndsIn outcome) : (plus body).EndsIn outcome := by
  intro entry exit operations
  cases outcome with
  | error error => rw [Link.plus, after_bind_of_error (hbody entry exit operations)]
  | ok =>
    rw [Link.plus, after_bind_of_ok (hbody entry exit operations)]
    exact hbody exit exit _

/-- A repetition builds its body once at least, so that no fault of the body is missed. -/
lemma EndsIn.repeated_of_error (hbody : body.EndsIn (.error error)) (min : Nat)
    (max : Option Nat) : (repeated min max body).EndsIn (.error error) := by
  have hcopies : ∀ count last, last.EndsIn (.error error) →
      (copies count body last).EndsIn (.error error) := by
    intro count last hlast
    rw [copies_eq]
    cases count with
    | zero => exact hlast
    | succ count => exact hbody.seq_of_error
  have hoptional : ∀ count, (optionalChain body count).EndsIn (.error error) := by
    intro count
    rw [optionalChain_eq]
    cases count with
    | zero => exact endsIn_skip.union hbody
    | succ count => exact endsIn_skip.union hbody.seq_of_error
  cases max with
  | none =>
    rw [repeated]
    split_ifs
    · exact hbody.star
    · exact hcopies _ _ hbody.plus
  | some max =>
    rw [repeated]
    split_ifs
    · exact hoptional _
    · exact hcopies _ _ hbody
    · exact hcopies _ _ (hoptional _)

end Link

/-! ### Patterns -/

namespace Pattern

def emit : Pattern → Link
  | skip => .skip
  | oneOf octets => .oneOf octets
  | seq first second => .seq first.emit second.emit
  | union first second => .union first.emit second.emit
  | star body => .star body.emit
  | plus body => .plus body.emit

lemma emit_copies (count : Nat) (body last : Pattern) :
    (copies count body last).emit = .copies count body.emit last.emit := by
  rw [Link.copies_eq]
  induction count with
  | zero => rfl
  | succ count ih => exact congrArg (Link.seq body.emit) ih

lemma emit_atMost (count : Nat) (body : Pattern) :
    (atMost count body).emit = body.emit.optionalChain (count - 1) := by
  rw [Link.optionalChain_eq, atMost]
  induction count - 1 with
  | zero => rfl
  | succ count ih => exact congrArg (fun rest => Link.union .skip (.seq body.emit rest)) ih

/-- Repetitions are built without spelling them out first. -/
lemma emit_repeated (min : Nat) (max : Option Nat) (body : Pattern) :
    (repeated min max body).emit = .repeated min max body.emit := by
  cases max with
  | none =>
    rw [repeated, Link.repeated, atLeast]
    split_ifs
    · rfl
    · exact emit_copies _ _ _
  | some max =>
    rw [repeated, Link.repeated]
    split_ifs
    · exact emit_atMost max body
    · exact emit_copies _ _ _
    · rw [emit_copies, emit_atMost]

lemma isSound_emit (pattern : Pattern) : pattern.emit.IsSound := by
  induction pattern with
  | skip => exact Link.isSound_skip
  | oneOf octets => exact Link.isSound_oneOf octets
  | seq first second ihf ihs => exact ihf.seq ihs
  | union first second ihf ihs => exact ihf.union ihs
  | star body ih => exact ih.star
  | plus body ih => exact ih.plus

/-- No fault ends the part of a pattern. -/
lemma endsIn_emit (pattern : Pattern) : pattern.emit.EndsIn (.ok ()) := by
  induction pattern with
  | skip => exact Link.endsIn_skip
  | oneOf octets => exact Link.endsIn_oneOf octets
  | seq first second ihf ihs => exact ihf.seq ihs
  | union first second ihf ihs => exact ihf.union ihs
  | star body ih => exact ih.star
  | plus body ih => exact ih.plus

variable {entry exit : StateId} {operations : List Operation}

lemma after_emit_bind {pattern : Pattern} {next : Unit → Emitter Unit} :
    (pattern.emit entry exit >>= next).after operations =
      (next ()).after ((pattern.emit entry exit).after operations).2 :=
  after_bind_of_ok (pattern.endsIn_emit entry exit operations)

/-- The operations of a pattern connect it. -/
lemma run?_emit (pattern : Pattern) :
    Builder.run? ((pattern.emit entry exit).after operations).2 =
      (Builder.run? operations).bind (pattern.connect entry exit) := by
  induction pattern generalizing entry exit operations with
  | skip => exact Builder.run?_concat
  | oneOf octets =>
    -- The edges are added from the first octet on, so the operations before have to be any.
    induction octets generalizing operations with
    | nil => exact (Option.bind_fun_some _).symm
    | cons octet octets ih =>
      calc Builder.run? (((oneOf (octet :: octets)).emit entry exit).after operations).2
          = Builder.run? (((oneOf octets).emit entry exit).after
              (operations ++ [.addTransition entry octet exit])).2 := rfl
        _ = _ := by
          rw [ih, Builder.run?_concat, Option.bind_assoc]
          rfl
  | seq first second ihf ihs =>
    rw [emit, Link.seq, after_bind_of_ok (congrArg Prod.fst after_allocate), after_emit_bind, ihs,
      ihf, after_allocate, Builder.run?_concat]
    cases hrun : Builder.run? operations with
    | none => rfl
    | some builder =>
      rw [← Builder.size_run? hrun]
      rfl
  | union first second ihf ihs =>
    rw [emit, Link.union, after_emit_bind, ihs, ihf, Option.bind_assoc]
    rfl
  | star body ih =>
    rw [emit, Link.star, after_bind_of_ok (congrArg Prod.fst after_perform), ih, after_perform,
      Builder.run?_concat, Option.bind_assoc]
    rfl
  | plus body ih =>
    rw [emit, Link.plus, after_emit_bind, ih, ih, Option.bind_assoc]
    rfl

end Pattern

end AugmentedBnf
