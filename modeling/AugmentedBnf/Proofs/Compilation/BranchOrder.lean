import AugmentedBnf.Proofs.Classification.Correspondence
import AugmentedBnf.Proofs.Compilation.Language
import AugmentedBnf.Proofs.Expansion.BranchOrder

/-!
# The order of branches

States are numbered in the order in which branches are come to, so that another order of branches
makes another automaton. But neither what it accepts nor how large it is depends on the order.

* `RegularRules.inline_reorders`: names have alike answers among rules with branches in two orders.
* `RegularRules.compile_reorders`: so they have automata that accept the same words, or none.
-/

namespace AugmentedBnf

lemma keepsNames_reorders : KeepsNames Rule.Reorders where
  name h := h.name
  references h _ := Alternation.mem_references_reorders h.body

namespace RegularRules

variable {regular regular' : RegularRules} {rules rules' : List Rule} {options : Options}

/-- At the same depth, names have alike answers. -/
lemma inline_reorders (h : List.Forall₂ Rule.Reorders regular.rules regular'.rules)
    (depth : Nat) (rule name : String) :
    AlikeAnswers (regular.inline options depth rule name)
      (regular'.inline options depth rule name) := by
  refine inline_rel keepsNames_reorders Rule.Reorders.marker (fun error => .error error error)
    (fun hreorders hinline => ?_) h depth rule name
  exact Alternation.expand_reorders hinline hreorders.body

lemma expand_reorders (h : List.Forall₂ Rule.Reorders rules rules') (options : Options)
    (root : String) :
    AlikeAnswers ((classify rules).regular.expand options root)
      ((classify rules').regular.expand options root) := by
  have hregular := classify_regular_rel keepsNames_reorders h
  have hsize : (classify rules).regular.size = (classify rules').regular.size := hregular.length_eq
  rw [expand, expand, ← hsize]
  exact inline_reorders hregular _ root root

/-- With the branches of rules in another order, at any depth, a root can be compiled as before. Its
automaton then has as many states as before, and accepts the same words. -/
theorem compile_reorders (h : List.Forall₂ Rule.Reorders rules rules') (options : Options)
    (root : String) :
    ((∃ nfa, (classify rules).regular.compile options root = .ok nfa) ↔
      ∃ nfa', (classify rules').regular.compile options root = .ok nfa') ∧
    ∀ nfa nfa', (classify rules).regular.compile options root = .ok nfa →
      (classify rules').regular.compile options root = .ok nfa' →
      nfa.size = nfa'.size ∧ ∀ word, nfa.Accepts word ↔ nfa'.Accepts word := by
  have hexpand := expand_reorders h options root
  constructor
  · rw [exists_compile_iff, exists_compile_iff]
    exact hexpand.exists_ok_iff
  · intro nfa nfa' hcompile hcompile'
    obtain ⟨pattern, hpattern, hnfa⟩ := compile_eq_ok hcompile
    obtain ⟨pattern', hpattern', hnfa'⟩ := compile_eq_ok hcompile'
    rw [hpattern, hpattern'] at hexpand
    cases hexpand with
    | ok halike =>
      constructor
      · rw [Nfa.size_ofPattern? hnfa, Nfa.size_ofPattern? hnfa', halike.innerStates]
      · intro word
        rw [← Nfa.mem_language, ← Nfa.mem_language, Nfa.language_ofPattern? hnfa,
          Nfa.language_ofPattern? hnfa', halike.traces]

/-- The rules `top = ["ac" / *"b"] / leaf` and `leaf = "x" / "y"`. -/
def branchingRules : List Rule :=
  [⟨"top", .basic, [[.once (.option [[.once (.literal [0x61, 0x63])],
      [⟨some (.between 0 none), .literal [0x62]⟩]])], [.once (.reference "leaf")]]⟩,
    ⟨"leaf", .basic, [[.once (.literal [0x78])], [.once (.literal [0x79])]]⟩]

/-- The rules `top = leaf / [*"b" / "ac"]` and `leaf = "y" / "x"`. -/
def turnedRules : List Rule :=
  [⟨"top", .basic, [[.once (.reference "leaf")],
      [.once (.option [[⟨some (.between 0 none), .literal [0x62]⟩],
        [.once (.literal [0x61, 0x63])]])]]⟩,
    ⟨"leaf", .basic, [[.once (.literal [0x79])], [.once (.literal [0x78])]]⟩]

lemma branchingRules_reorders_turnedRules :
    List.Forall₂ Rule.Reorders branchingRules turnedRules := by
  have hliteral : ∀ bounds octets,
      Concatenation.Reorders [⟨bounds, .literal octets⟩] [⟨bounds, .literal octets⟩] :=
    fun bounds octets => .cons (.element bounds (.literal octets)) .nil
  have hoption : Alternation.Reorders
      [[.once (.literal [0x61, 0x63])], [⟨some (.between 0 none), .literal [0x62]⟩]]
      [[⟨some (.between 0 none), .literal [0x62]⟩], [.once (.literal [0x61, 0x63])]] :=
    .permute (.cons (hliteral _ _) (.cons (hliteral _ _) .nil)) (.swap _ _ _)
  have htop : Rule.Reorders branchingRules[0] turnedRules[0] :=
    ⟨rfl, rfl, .permute (.cons (.cons (.element none (.option hoption)) .nil)
      (.cons (.cons (.element none (.reference "leaf")) .nil) .nil)) (.swap _ _ _)⟩
  have hleaf : Rule.Reorders branchingRules[1] turnedRules[1] :=
    ⟨rfl, rfl, .permute (.cons (hliteral _ _) (.cons (hliteral _ _) .nil)) (.swap _ _ _)⟩
  exact .cons htop (.cons hleaf .nil)

/-- A loop that comes first is found last in the other order. There is one state between the ends
either way. -/
theorem compile_reorders_branchingRules :
    List.Forall₂ Rule.Reorders branchingRules turnedRules ∧
      ∃ nfa nfa', (classify branchingRules).regular.compile {} "top" = .ok nfa ∧
        (classify turnedRules).regular.compile {} "top" = .ok nfa' ∧
        nfa.size = 3 ∧ nfa'.size = 3 ∧ nfa.Accepts [0x62, 0x42] ∧ nfa'.Accepts [0x62, 0x42] ∧
        ∀ word, nfa.Accepts word ↔ nfa'.Accepts word := by
  have h := branchingRules_reorders_turnedRules
  obtain ⟨hiff, hsame⟩ := compile_reorders h {} "top"
  have hexpand : (classify branchingRules).regular.expand {} "top" =
      .ok (.union (.union .skip (.union (.text [0x61, 0x63]) (.star (.text [0x62]))))
        (.union (.text [0x78]) (.text [0x79]))) := rfl
  obtain ⟨nfa, hcompile, hlanguage⟩ := exists_compile hexpand
  obtain ⟨nfa', hcompile'⟩ := hiff.mp ⟨nfa, hcompile⟩
  obtain ⟨hsize, hwords⟩ := hsame nfa nfa' hcompile hcompile'
  have hthree : nfa.size = 3 := by
    obtain ⟨pattern, hpattern, hnfa⟩ := compile_eq_ok hcompile
    obtain rfl := Except.ok.inj (hexpand.symm.trans hpattern)
    exact Nfa.size_ofPattern? hnfa
  have haccepts : nfa.Accepts [0x62, 0x42] := by
    rw [← Nfa.mem_language, hlanguage]
    have htwice : [0x62, 0x42] ∈ (Pattern.star (.text [0x62])).language := by
      refine Language.mem_kstar.mpr ⟨[[0x62], [0x42]], rfl, ?_⟩
      simp only [List.forall_mem_cons, Pattern.mem_language_text]
      decide
    exact Pattern.language_le_traces _ (.inl (.inr (.inr htwice)))
  exact ⟨h, nfa, nfa', hcompile, hcompile', hthree, hsize ▸ hthree, haccepts,
    (hwords _).mp haccepts, hwords⟩

end RegularRules

end AugmentedBnf
