import AugmentedBnf.Compilation
import AugmentedBnf.Proofs.Classification.Partition
import AugmentedBnf.Proofs.Denotation.Expansion
import AugmentedBnf.Proofs.Nfa.Thompson

/-!
# Languages of compiled automata

The automaton of a rule accepts every word that the rule describes. The converse fails: a loop stays
at the exit that its branch shares with other branches, so that it may be walked behind them, too.

* `RegularRules.accepts_of_denotes`: what a rule describes is accepted.
* `RegularRules.accepts_loop_behind_letter`: more than a rule describes is accepted.
-/

namespace AugmentedBnf

namespace RegularRules

variable {rules : List Rule} {options : Options} {root : String} {nfa : Nfa}

lemma compile_eq_ok {regular : RegularRules} (h : regular.compile options root = .ok nfa) :
    ∃ pattern, regular.expand options root = .ok pattern ∧ Nfa.ofPattern? pattern = some nfa := by
  unfold compile at h
  split at h
  · cases h
  · next pattern hexpand =>
    split at h
    · next found hpattern =>
      obtain rfl := Except.ok.inj h
      exact ⟨pattern, hexpand, hpattern⟩
    · cases h

lemma exists_compile {regular : RegularRules} {pattern : Pattern}
    (h : regular.expand options root = .ok pattern) :
    ∃ nfa, regular.compile options root = .ok nfa ∧ nfa.language = pattern.traces := by
  obtain ⟨nfa, hpattern⟩ := Nfa.exists_ofPattern? pattern
  exact ⟨nfa, by simp [compile, h, hpattern], Nfa.language_ofPattern? hpattern⟩

/-- A name has an automaton if it has a pattern. -/
lemma exists_compile_iff {regular : RegularRules} :
    (∃ nfa, regular.compile options root = .ok nfa) ↔
      ∃ pattern, regular.expand options root = .ok pattern := by
  constructor
  · rintro ⟨nfa, hcompile⟩
    obtain ⟨pattern, hexpand, -⟩ := compile_eq_ok hcompile
    exact ⟨pattern, hexpand⟩
  · rintro ⟨pattern, hexpand⟩
    obtain ⟨nfa, hcompile, -⟩ := exists_compile hexpand
    exact ⟨nfa, hcompile⟩

/-- The pattern of a name describes the words that the name describes. -/
lemma denotes_iff_of_expand (hnames : (rules.map Rule.name).Nodup) {pattern : Pattern}
    (h : (classify rules).regular.expand options root = .ok pattern) (word : List Octet) :
    Element.Denotes rules options (.reference root) word ↔ word ∈ pattern.language :=
  denotes_inline (regular_subset rules) hnames _ _ root pattern h word

/-- The automaton of a rule accepts every word that the rule describes. -/
theorem accepts_of_denotes (hnames : (rules.map Rule.name).Nodup)
    (hcompile : (classify rules).regular.compile options root = .ok nfa) :
    ∀ word, Element.Denotes rules options (.reference root) word → nfa.Accepts word := by
  intro word hword
  obtain ⟨pattern, hexpand, hpattern⟩ := compile_eq_ok hcompile
  rw [denotes_iff_of_expand hnames hexpand] at hword
  rw [← Nfa.mem_language, Nfa.language_ofPattern? hpattern]
  exact pattern.language_le_traces hword

/-- The rules `r = 2*3d ["x"]` and `d = %x30-39`. -/
def countedDigits : List Rule :=
  [⟨"r", .basic, [[⟨some (.between 2 (some 3)), .reference "d"⟩,
      .once (.option [[.once (.literal [0x78])]])]]⟩,
    ⟨"d", .basic, [[.once (.numeric ⟨.hexadecimal, true, [0x30, 0x39]⟩)]]⟩]

/-- Three digits and a letter in the other case. -/
theorem accepts_countedDigits :
    (countedDigits.map Rule.name).Nodup ∧
      ∃ nfa, (classify countedDigits).regular.compile { rangeMode := .inclusive } "r" = .ok nfa ∧
        Element.Denotes countedDigits { rangeMode := .inclusive } (.reference "r")
          [0x31, 0x32, 0x37, 0x58] ∧
        nfa.Accepts [0x31, 0x32, 0x37, 0x58] := by
  have hdigit : ∀ octet : Octet, 0x30 ≤ octet.toNat → octet.toNat ≤ 0x39 →
      Element.Denotes countedDigits { rangeMode := .inclusive } (.reference "d") [octet] := by
    intro octet hlower hupper
    have hvalue : Numeric.Denotes ⟨.hexadecimal, true, [0x30, 0x39]⟩ .inclusive [octet] :=
      ⟨octet, rfl, hlower, hupper⟩
    exact .reference (.tail _ (.head _))
      (Alternation.denotes_singleton.mpr (Concatenation.denotes_singleton.mpr
        (.once (.numeric hvalue))))
  have hdigits : Element.DenotesTimes countedDigits { rangeMode := .inclusive } 3 (.reference "d")
      [0x31, 0x32, 0x37] :=
    .succ (hdigit 0x31 (by decide) (by decide)) (.succ (hdigit 0x32 (by decide) (by decide))
      (.succ (hdigit 0x37 (by decide) (by decide)) .zero))
  have hletter : Element.Denotes countedDigits { rangeMode := .inclusive }
      (.option [[.once (.literal [0x78])]]) [0x58] :=
    .present (Alternation.denotes_singleton.mpr (Concatenation.denotes_singleton.mpr
      (.once (.literal rfl))))
  have hword : Element.Denotes countedDigits { rangeMode := .inclusive } (.reference "r")
      [0x31, 0x32, 0x37, 0x58] :=
    .reference (.head _) (Alternation.denotes_singleton.mpr
      (.cons (.repeated ⟨by decide, by rintro _ ⟨⟩; decide⟩ hdigits)
        (Concatenation.denotes_singleton.mpr (.once hletter))))
  obtain ⟨nfa, hcompile, -⟩ := @exists_compile { rangeMode := .inclusive } "r"
    (classify countedDigits).regular _ rfl
  exact ⟨by decide, nfa, hcompile, hword, accepts_of_denotes (by decide) hcompile _ hword⟩

/-- The rule `r = *"a" / "b"`. -/
def loopBesideLetter : List Rule :=
  [⟨"r", .basic, [[⟨some (.between 0 none), .literal [0x61]⟩], [.once (.literal [0x62])]]⟩]

lemma expand_loopBesideLetter : (classify loopBesideLetter).regular.expand {} "r" =
    .ok (.union (.star (.text [0x61])) (.text [0x62])) := by
  rfl

/-- The loop of the first branch may be walked behind the second, so that `ba` is accepted. -/
theorem accepts_loop_behind_letter :
    ∃ nfa, (classify loopBesideLetter).regular.compile {} "r" = .ok nfa ∧
      nfa.Accepts [0x62, 0x61] ∧
      ¬ Element.Denotes loopBesideLetter {} (.reference "r") [0x62, 0x61] := by
  obtain ⟨nfa, hcompile, hlanguage⟩ := exists_compile expand_loopBesideLetter
  refine ⟨nfa, hcompile, ?_, ?_⟩
  · rw [← Nfa.mem_language, hlanguage]
    have htext : ∀ octet : Octet, [octet] ∈ (Pattern.text [octet]).language :=
      fun _ => Pattern.mem_language_text.mpr rfl
    have hletter := Pattern.language_le_traces (.union (.star (.text [0x61])) (.text [0x62]))
      (.inr (htext 0x62))
    have hloop := Pattern.language_le_traces _ (htext 0x61)
    -- The loop is at the exit of the union, so its words may follow those of either branch.
    exact Pattern.append_mem_traces hletter (.inl (.inl hloop))
  · rw [denotes_iff_of_expand (by decide) expand_loopBesideLetter]
    rintro (hstar | hletter)
    · obtain ⟨words, hwords, hword⟩ := Language.mem_kstar.mp hstar
      have hmem : 0x62 ∈ words.flatten := hwords ▸ List.mem_cons_self
      obtain ⟨word, hin, hmem⟩ := List.mem_flatten.mp hmem
      have hcase := Pattern.mem_language_text.mp (hword word hin)
      have hlower : Octet.toLower 0x62 ∈ [0x61].map Octet.toLower :=
        hcase ▸ List.mem_map_of_mem hmem
      exact absurd hlower (by decide)
    · exact absurd (Pattern.mem_language_text.mp hletter) (by decide)

end RegularRules

end AugmentedBnf
