import Mathlib.Tactic.Lemma
import AugmentedBnf.Reader.Basic

/-!
# Outcomes of steps that may fail

Steps are taken apart here, so that proofs about expanders and readers need not look into how steps
are put together.
-/

namespace AugmentedBnf

variable {ε α β : Type}

lemma bind_eq_ok {step : Except ε α} {next : α → Except ε β} {value : β} :
    step >>= next = .ok value ↔ ∃ middle, step = .ok middle ∧ next middle = .ok value := by
  cases step with
  | error => simp [bind, Except.bind]
  | ok middle => simp [bind, Except.bind]

lemma bind_eq_error {step : Except ε α} {next : α → Except ε β} {error : ε} :
    step >>= next = .error error ↔
      step = .error error ∨ ∃ middle, step = .ok middle ∧ next middle = .error error := by
  cases step with
  | error => simp [bind, Except.bind]
  | ok middle => simp [bind, Except.bind]

lemma mapError_bind {ε' : Type} (f : ε → ε') (step : Except ε α) (next : α → Except ε β) :
    (step >>= next).mapError f = step.mapError f >>= fun value => (next value).mapError f := by
  cases step with
  | error => rfl
  | ok middle => rfl

end AugmentedBnf
