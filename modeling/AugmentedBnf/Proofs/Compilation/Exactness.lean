import AugmentedBnf.Proofs.Compilation.Language
import AugmentedBnf.Proofs.Denotation.SharedExit

/-!
# Exact automata

The automaton of a rule accepts more than the rule describes only if an unbounded repetition ends at
an exit that is shared: where the branches of an alternation end, or where an option or an optional
repetition may be skipped.

* `RegularRules.accepts_only_denoted`: what the automaton accepts are the traces of a pattern, and what
  the rule describes are its words. Without such a repetition the former are among the latter.
* `RegularRules.accepts_iff_denotes`: without such a repetition the automaton accepts what the rule
  describes, neither more nor less.
-/

namespace AugmentedBnf

namespace RegularRules

variable {rules : List Rule} {options : Options} {root : String} {nfa : Nfa}

/-- The automaton of a rule accepts the traces of its pattern, and the rule describes the words of its
pattern. If no loop ends at a shared exit, wherever the body of the rule and the references in it lead
to, no other words are accepted than the rule describes. -/
theorem accepts_only_denoted (hnames : (rules.map Rule.name).Nodup)
    (hcompile : (classify rules).regular.compile options root = .ok nfa) :
    ∃ pattern, (classify rules).regular.expand options root = .ok pattern ∧
      (∀ word, nfa.Accepts word ↔ word ∈ pattern.traces) ∧
      (∀ word, Element.Denotes rules options (.reference root) word ↔ word ∈ pattern.language) ∧
      (¬ Element.SharesLoop rules options.countMode (.reference root) →
        ∀ word, nfa.Accepts word → Element.Denotes rules options (.reference root) word) := by
  obtain ⟨pattern, hexpand, hpattern⟩ := compile_eq_ok hcompile
  have haccepts : ∀ word, nfa.Accepts word ↔ word ∈ pattern.traces := by
    intro word
    rw [← Nfa.mem_language, Nfa.language_ofPattern? hpattern]
  refine ⟨pattern, hexpand, haccepts, denotes_iff_of_expand hnames hexpand, ?_⟩
  intro happart word hword
  have hexact : pattern.IsExact :=
    (keepsExits_inline (regular_subset rules) _ _ root pattern hexpand).2 happart
  rw [haccepts, hexact] at hword
  exact (denotes_iff_of_expand hnames hexpand word).mpr hword

/-- The rule `r = *"a" "b"`. -/
def loopBeforeLetter : List Rule :=
  [⟨"r", .basic, [[⟨some (.between 0 none), .literal [0x61]⟩, .once (.literal [0x62])]]⟩]

/-- Behind the letter the loop is not walked again, so that `ba` is not accepted. -/
theorem accepts_only_denoted_loopBeforeLetter :
    (loopBeforeLetter.map Rule.name).Nodup ∧
      ¬ Element.SharesLoop loopBeforeLetter .atLeast (.reference "r") ∧
      ∃ nfa, (classify loopBeforeLetter).regular.compile {} "r" = .ok nfa ∧
        (∀ word, nfa.Accepts word → Element.Denotes loopBeforeLetter {} (.reference "r") word) ∧
        ¬ nfa.Accepts [0x62, 0x61] := by
  have hnames : (loopBeforeLetter.map Rule.name).Nodup := by decide
  have happart : ¬ Element.SharesLoop loopBeforeLetter .atLeast (.reference "r") := by
    change ¬ Element.SharesLoop loopBeforeLetter .atLeast (.reference loopBeforeLetter[0].name)
    rw [Element.sharesLoop_reference, exists_mem_name_iff hnames (by simp [loopBeforeLetter])]
    simp [loopBeforeLetter, Repetition.once, Repeat.between]
  have hexpand : (classify loopBeforeLetter).regular.expand {} "r" =
      .ok (.seq (.star (.text [0x61])) (.text [0x62])) := rfl
  obtain ⟨nfa, hcompile, -⟩ := exists_compile hexpand
  obtain ⟨pattern, hpattern, -, hwords, hsound⟩ := accepts_only_denoted hnames hcompile
  obtain rfl := Except.ok.inj (hexpand.symm.trans hpattern)
  refine ⟨hnames, happart, nfa, hcompile, hsound happart, fun haccepts => ?_⟩
  have hword := (hwords _).mp (hsound happart _ haccepts)
  -- Every word of the rule ends in the letter, which `ba` does not.
  obtain ⟨front, -, last, hlast, heq⟩ := Language.mem_mul.mp hword
  have hlength : last.length = 1 := by
    simpa using congrArg List.length (Pattern.mem_language_text.mp hlast)
  obtain ⟨octet, rfl⟩ := List.length_eq_one_iff.mp hlength
  obtain ⟨-, rfl⟩ : front = [0x62] ∧ octet = 0x61 := by
    simpa using List.append_inj' (heq.trans (List.singleton_append (x := 0x62)).symm) rfl
  exact absurd (Pattern.mem_language_text.mp hlast) (by decide)

/-- If no loop ends at a shared exit, wherever the body of a rule and the references in it lead to,
the automaton of the rule accepts the words that the rule describes and no others. -/
theorem accepts_iff_denotes (hnames : (rules.map Rule.name).Nodup)
    (hcompile : (classify rules).regular.compile options root = .ok nfa)
    (happart : ¬ Element.SharesLoop rules options.countMode (.reference root)) :
    ∀ word, nfa.Accepts word ↔ Element.Denotes rules options (.reference root) word := by
  intro word
  obtain ⟨pattern, hexpand, hpattern⟩ := compile_eq_ok hcompile
  have hexact : pattern.IsExact :=
    (keepsExits_inline (regular_subset rules) _ _ root pattern hexpand).2 happart
  rw [← Nfa.mem_language, Nfa.language_ofPattern? hpattern, hexact,
    denotes_iff_of_expand hnames hexpand]

/-- The rule `end = "." / "!"`. -/
def endRule : Rule := ⟨"end", .basic, [[.once (.literal [0x2E])], [.once (.literal [0x21])]]⟩

/-- The rule `block = "-" 2*(*"a" "b" *"a")`. -/
def blockRule : Rule :=
  ⟨"block", .basic, [[.once (.literal [0x2D]),
    ⟨some (.between 2 none), .group [[⟨some (.between 0 none), .literal [0x61]⟩,
      .once (.literal [0x62]), ⟨some (.between 0 none), .literal [0x61]⟩]]⟩]]⟩

/-- The rule `blocks = 1*2block [end]`. -/
def blocksRule : Rule :=
  ⟨"blocks", .basic, [[⟨some (.between 1 (some 2)), .reference "block"⟩,
    .once (.option [[.once (.reference "end")]])]]⟩

def blocksRules : List Rule := [blocksRule, blockRule, endRule]

lemma nodup_blocksRules : (blocksRules.map Rule.name).Nodup := by decide

lemma not_sharesLoop_blocksRules :
    ¬ Element.SharesLoop blocksRules .atLeast (.reference "blocks") := by
  have hend : ¬ Element.SharesLoop blocksRules .atLeast (.reference "end") := by
    change ¬ Element.SharesLoop blocksRules .atLeast (.reference endRule.name)
    rw [Element.sharesLoop_reference, exists_mem_name_iff nodup_blocksRules (by simp [blocksRules])]
    simp [endRule, Repetition.once]
  have hexit : ¬ Element.LoopsAtExit blocksRules .atLeast (.reference "end") := by
    change ¬ Element.LoopsAtExit blocksRules .atLeast (.reference endRule.name)
    rw [Element.loopsAtExit_reference,
      exists_mem_name_iff nodup_blocksRules (by simp [blocksRules])]
    simp [endRule, Repetition.once]
  have hblock : ¬ Element.SharesLoop blocksRules .atLeast (.reference "block") := by
    change ¬ Element.SharesLoop blocksRules .atLeast (.reference blockRule.name)
    rw [Element.sharesLoop_reference, exists_mem_name_iff nodup_blocksRules (by simp [blocksRules])]
    simp [blockRule, Repetition.once, Repeat.between]
  change ¬ Element.SharesLoop blocksRules .atLeast (.reference blocksRule.name)
  rw [Element.sharesLoop_reference, exists_mem_name_iff nodup_blocksRules (by simp [blocksRules])]
  simp [blocksRule, Repetition.once, Repeat.between, hblock, hend, hexit]

/-- Loops within loops, copies that may be left out, and options do no harm as they stand here. -/
theorem accepts_iff_denotes_blocksRules :
    (blocksRules.map Rule.name).Nodup ∧
      ¬ Element.SharesLoop blocksRules .atLeast (.reference "blocks") ∧
      ∃ nfa, (classify blocksRules).regular.compile {} "blocks" = .ok nfa ∧
        ∀ word, nfa.Accepts word ↔ Element.Denotes blocksRules {} (.reference "blocks") word := by
  have happart := not_sharesLoop_blocksRules
  obtain ⟨nfa, hcompile, -⟩ := @exists_compile {} "blocks" (classify blocksRules).regular _ rfl
  exact ⟨nodup_blocksRules, happart, nfa, hcompile,
    accepts_iff_denotes nodup_blocksRules hcompile happart⟩

end RegularRules

end AugmentedBnf
