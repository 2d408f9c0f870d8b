import AugmentedBnf.Grammar.Basic

/-!
# Equality of grammars

Equality of rule bodies is decided by walking both at once.
-/

namespace AugmentedBnf

mutual

def Element.decEq : (a b : Element) → Decidable (a = b)
  | .reference a, .reference b => decidable_of_iff (a = b) (by simp)
  | .group a, .group b =>
    match Alternation.decEq a b with
    | isTrue h => isTrue (by rw [h])
    | isFalse h => isFalse (by simpa using h)
  | .option a, .option b =>
    match Alternation.decEq a b with
    | isTrue h => isTrue (by rw [h])
    | isFalse h => isFalse (by simpa using h)
  | .literal a, .literal b => decidable_of_iff (a = b) (by simp)
  | .numeric a, .numeric b => decidable_of_iff (a = b) (by simp)
  | .prose a, .prose b => decidable_of_iff (a = b) (by simp)
  | .reference _, .group _ | .reference _, .option _ | .reference _, .literal _
  | .reference _, .numeric _ | .reference _, .prose _ => isFalse (by nofun)
  | .group _, .reference _ | .group _, .option _ | .group _, .literal _
  | .group _, .numeric _ | .group _, .prose _ => isFalse (by nofun)
  | .option _, .reference _ | .option _, .group _ | .option _, .literal _
  | .option _, .numeric _ | .option _, .prose _ => isFalse (by nofun)
  | .literal _, .reference _ | .literal _, .group _ | .literal _, .option _
  | .literal _, .numeric _ | .literal _, .prose _ => isFalse (by nofun)
  | .numeric _, .reference _ | .numeric _, .group _ | .numeric _, .option _
  | .numeric _, .literal _ | .numeric _, .prose _ => isFalse (by nofun)
  | .prose _, .reference _ | .prose _, .group _ | .prose _, .option _
  | .prose _, .literal _ | .prose _, .numeric _ => isFalse (by nofun)

def Repetition.decEq : (a b : Repetition) → Decidable (a = b)
  | ⟨m, a⟩, ⟨n, b⟩ =>
    match Element.decEq a b with
    | isTrue h => decidable_of_iff (m = n) (by simp [h])
    | isFalse h => isFalse (by simp [h])

def Concatenation.decEq : (a b : Concatenation) → Decidable (a = b)
  | [], [] => isTrue rfl
  | [], _ :: _ | _ :: _, [] => isFalse (by nofun)
  | a :: as, b :: bs =>
    match Repetition.decEq a b, Concatenation.decEq as bs with
    | isTrue h, isTrue hs => isTrue (by rw [h, hs])
    | isFalse h, _ => isFalse (by simp [h])
    | _, isFalse h => isFalse (by simp [h])

def Alternation.decEq : (a b : Alternation) → Decidable (a = b)
  | [], [] => isTrue rfl
  | [], _ :: _ | _ :: _, [] => isFalse (by nofun)
  | a :: as, b :: bs =>
    match Concatenation.decEq a b, Alternation.decEq as bs with
    | isTrue h, isTrue hs => isTrue (by rw [h, hs])
    | isFalse h, _ => isFalse (by simp [h])
    | _, isFalse h => isFalse (by simp [h])

end

instance : DecidableEq Element := Element.decEq

instance : DecidableEq Repetition := Repetition.decEq

deriving instance DecidableEq for Rule

deriving instance DecidableEq for Grammar

end AugmentedBnf
