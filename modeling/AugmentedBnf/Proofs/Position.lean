import Mathlib.Data.List.Infix
import Mathlib.Tactic.Lemma
import AugmentedBnf.Position

/-!
# Positions tell offsets apart

Octets without a line feed move a position to the right, and a line feed moves it to a later line. So
no two offsets of a document have one position.
-/

namespace AugmentedBnf.Position

variable {before octets : List Octet}

lemma behind_append_of_notMem (h : lineFeed ∉ octets) :
    behind (before ++ octets) =
      ⟨(behind before).line, (behind before).column + octets.length⟩ := by
  have hrun : ∀ octet ∈ octets.reverse, (octet != lineFeed) = true := by
    intro octet hoctet
    rw [bne_iff_ne]
    rintro rfl
    exact h (List.mem_reverse.mp hoctet)
  simp only [behind, List.count_append, List.count_eq_zero_of_not_mem h, List.reverse_append,
    List.takeWhile_append_of_pos hrun, List.length_append, List.length_reverse]
  congr 1
  omega

lemma eq_nil_of_behind_append (h : behind (before ++ octets) = behind before) : octets = [] := by
  have hline : lineFeed ∉ octets := by
    have hcount := congrArg line h
    simp only [behind, List.count_append] at hcount
    exact List.count_eq_zero.mp (by omega)
  have hcolumn := congrArg column (behind_append_of_notMem hline ▸ h)
  exact List.length_eq_zero_iff.mp (Nat.add_eq_left.mp hcolumn)

lemma locate_ne_of_lt {document : List Octet} {offset other : Nat} (hlt : other < offset)
    (hoffset : offset ≤ document.length) : locate document offset ≠ locate document other := by
  intro h
  obtain ⟨octets, hoctets⟩ : document.take other <+: document.take offset :=
    List.take_isPrefix_take.mpr (Or.inl hlt.le)
  rw [locate, locate, ← hoctets] at h
  have hlength := congrArg List.length hoctets
  rw [eq_nil_of_behind_append h, List.append_nil, List.length_take, List.length_take] at hlength
  omega

/-- A position in a document is the position of one offset only. -/
lemma locate_inj {document : List Octet} {offset other : Nat} (hoffset : offset ≤ document.length)
    (hother : other ≤ document.length) :
    locate document offset = locate document other ↔ offset = other := by
  constructor
  · intro h
    obtain hlt | heq | hlt := Nat.lt_trichotomy other offset
    · exact absurd h (locate_ne_of_lt hlt hoffset)
    · exact heq.symm
    · exact absurd h.symm (locate_ne_of_lt hlt hother)
  · rintro rfl
    rfl

lemma locate_behind (before rest : List Octet) :
    locate (before ++ rest) ((before ++ rest).length - rest.length) = behind before := by
  rw [List.length_append, Nat.add_sub_cancel, locate, List.take_left]

def advance (position : Position) (octet : Octet) : Position :=
  if octet = lineFeed then ⟨position.line + 1, 1⟩ else ⟨position.line, position.column + 1⟩

lemma behind_eq_foldl (octets : List Octet) : behind octets = octets.foldl advance ⟨1, 1⟩ := by
  induction octets using List.reverseRecOn with
  | nil => rfl
  | append_singleton octets octet ih =>
    rw [List.foldl_append, ← ih]
    by_cases hoctet : octet = lineFeed <;>
      simp [behind, advance, hoctet, List.count_append]

end AugmentedBnf.Position
