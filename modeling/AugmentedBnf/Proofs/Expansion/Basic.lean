import Mathlib.Tactic.SplitIfs
import AugmentedBnf.Expansion
import AugmentedBnf.Proofs.Outcome

/-!
# Expansions that succeed

What the pattern of a body is made of, if the body has one, so that proofs about patterns need not
look into how a body is gone through.

* `Repetition.expand_bounds_eq_ok`, `Alternation.expand_cons_cons_eq_ok` and the like: one step.
* `RegularRules.inline_induction`: what every rule hands on to its pattern, names do.
-/

namespace AugmentedBnf

/-- A numeric value without a fault has octets for numbers. -/
lemma Numeric.toNat_toUInt8 {value : Numeric} {mode : RangeMode} {number : UInt32}
    (hfault : value.fault? mode = none) (hnumber : number ∈ value.values) :
    number.toUInt8.toNat = number.toNat := by
  have hfind : value.values.find? (0xFF < ·) = none := by
    unfold fault? at hfault
    split at hfault
    · cases hfault
    · assumption
  have hle := List.find?_eq_none.mp hfind number hnumber
  rw [decide_eq_true_eq, UInt32.lt_iff_toNat_lt] at hle
  rw [UInt32.toNat_toUInt8]
  exact Nat.mod_eq_of_lt (Nat.lt_succ_iff.mpr (Nat.not_lt.mp hle))

lemma Repeat.isZero_iff {bounds : Repeat} {mode : CountMode} :
    bounds.isZero mode = true ↔
      bounds.starred = false ∧ bounds.min = 0 ∧ bounds.maximum mode = some 0 := by
  simp [isZero, and_assoc]

lemma Repeat.min_le_maximum {bounds : Repeat} {options : Options}
    (hfault : bounds.fault? options = none) :
    ∀ max ∈ (bounds.maximum options.countMode).map UInt32.toNat, bounds.min.toNat ≤ max := by
  unfold fault? at hfault
  cases hmax : bounds.maximum options.countMode with
  | none => simp
  | some max =>
    simp only [hmax] at hfault
    split_ifs at hfault with hlimit hlt
    rw [UInt32.lt_iff_toNat_lt] at hlt
    simpa using hlt

section

variable {options : Options} {rule : String} {inline : String → Except ExpansionError Pattern}
  {pattern : Pattern}

lemma Element.expand_option_eq_ok {body : Alternation} :
    Element.expand options rule inline (.option body) = .ok pattern ↔
      ∃ inner, Alternation.expand options rule inline body = .ok inner ∧
        .union .skip inner = pattern := by
  rw [Element.expand, bind_eq_ok]
  simp [pure, Except.pure]

lemma Element.expand_numeric_eq_ok {value : Numeric} :
    Element.expand options rule inline (.numeric value) = .ok pattern ↔
      value.fault? options.rangeMode = none ∧ value.pattern options.rangeMode = pattern := by
  rw [Element.expand]
  cases value.fault? options.rangeMode <;> simp

/-- An element with bounds is expanded if the bounds have no fault and ask for a copy. -/
lemma Repetition.expand_bounds_eq_ok {bounds : Repeat} {element : Element} :
    Repetition.expand options rule inline ⟨some bounds, element⟩ = .ok pattern ↔
      bounds.fault? options = none ∧
        (bounds.isZero options.countMode = true ∧ .skip = pattern ∨
          bounds.isZero options.countMode = false ∧
            ∃ inner, Element.expand options rule inline element = .ok inner ∧
              inner.repeated bounds.min.toNat
                ((bounds.maximum options.countMode).map UInt32.toNat) = pattern) := by
  rw [Repetition.expand]
  cases bounds.fault? options with
  | some fault => simp
  | none =>
    cases hzero : bounds.isZero options.countMode with
    | true => simp
    | false => simp [bind_eq_ok, pure, Except.pure]

lemma Concatenation.expand_cons_cons_eq_ok {repetition next : Repetition} {rest : Concatenation} :
    Concatenation.expand options rule inline (repetition :: next :: rest) = .ok pattern ↔
      ∃ first, Repetition.expand options rule inline repetition = .ok first ∧
        ∃ second, Concatenation.expand options rule inline (next :: rest) = .ok second ∧
          .seq first second = pattern := by
  rw [Concatenation.expand, bind_eq_ok]
  · simp [bind_eq_ok, pure, Except.pure]
  · simp

lemma Alternation.expand_cons_cons_eq_ok {branch next : Concatenation} {rest : Alternation} :
    Alternation.expand options rule inline (branch :: next :: rest) = .ok pattern ↔
      ∃ first, Concatenation.expand options rule inline branch = .ok first ∧
        ∃ second, Alternation.expand options rule inline (next :: rest) = .ok second ∧
          .union first second = pattern := by
  rw [Alternation.expand, bind_eq_ok]
  · simp [bind_eq_ok, pure, Except.pure]
  · simp

end

namespace RegularRules

variable {regular : RegularRules} {options : Options} {rule name : String} {found : Rule}

lemma resolve_eq_ok (h : regular.resolve rule name = .ok found) :
    regular.get? name = some found ∧ found.marker = .basic := by
  unfold resolve at h
  split at h
  · cases h
  · next hget =>
    split at h
    · cases h
    · next hmarker =>
      obtain rfl := Except.ok.inj h
      exact ⟨hget, hmarker⟩

lemma name_of_get? (h : regular.get? name = some found) :
    found ∈ regular.rules ∧ found.name = name := by
  have hmem := List.mem_of_find?_eq_some h
  have hname := List.find?_some h
  exact ⟨List.mem_reverse.mp hmem, beq_iff_eq.mp hname⟩

/-- What holds of the pattern of a rule if it holds of those of the names the rule refers to holds
of the patterns of all names. -/
lemma inline_induction {P : String → Pattern → Prop}
    (h : ∀ found ∈ regular.rules, ∀ inline : String → Except ExpansionError Pattern,
      (∀ name pattern, inline name = .ok pattern → P name pattern) →
      ∀ pattern, Alternation.expand options found.name inline found.body = .ok pattern →
        P found.name pattern) (depth : Nat) (rule name : String) (pattern : Pattern)
    (hinline : regular.inline options depth rule name = .ok pattern) : P name pattern := by
  induction depth generalizing rule name pattern with
  | zero =>
    obtain ⟨found, -, hendless⟩ := bind_eq_ok.mp hinline
    cases hendless
  | succ depth ih =>
    obtain ⟨found, hfound, hbody⟩ := bind_eq_ok.mp hinline
    obtain ⟨hmem, rfl⟩ := name_of_get? (resolve_eq_ok hfound).1
    exact h found hmem _ (ih found.name) pattern hbody

end RegularRules

end AugmentedBnf
