import AugmentedBnf.Proofs.Classification.Reachability
import AugmentedBnf.Proofs.Compilation.Termination
import AugmentedBnf.Proofs.Expansion.Faults

/-!
# Undefined names

A regular rule refers to rules found before it, and among these are self-resolvable ones, which no
lookup finds. They are the only names that an expansion of a regular rule can miss.

* `Alternation.exists_undefined_of_expand`: a body misses a name where it refers to it, or for one
  of the names it refers to.
* `RegularRules.undefined_is_selfResolvable`: what a compilation misses is its root or a
  self-resolvable rule within reach.
-/

namespace AugmentedBnf

open Relation

/-- A name that is missed in a body is missed for a name that the body refers to. -/
lemma Alternation.exists_undefined_of_expand {options : Options} {rule missing user : String}
    {inline : String → Except ExpansionError Pattern} {body : Alternation}
    (h : Alternation.expand options rule inline body =
      .error (.faulty (.undefinedRule missing) user)) :
    ∃ name ∈ Alternation.references body,
      inline name = .error (.faulty (.undefinedRule missing) user) := by
  rcases Alternation.expand_eq_error body h with ⟨fault, hown, heq⟩ | hname
  · cases heq
    cases hown with
    | bounds hfault => cases hfault
    | numeric hfault => cases hfault
  · exact hname

namespace RegularRules

section

variable {regular : RegularRules} {options : Options} {depth : Nat}
  {rule name missing user root : String}

lemma resolve_eq_undefined :
    regular.resolve rule name = .error (.faulty (.undefinedRule missing) user) ↔
      regular.get? name = none ∧ missing = name ∧ user = rule := by
  unfold resolve
  cases regular.get? name with
  | none => simp [eq_comm]
  | some found => cases h : found.marker <;> simp [h]

/-- A name misses itself, or else a name that some rule refers to which it leads to. -/
lemma inline_eq_undefined
    (h : regular.inline options depth rule name =
      .error (.faulty (.undefinedRule missing) user)) :
    regular.get? missing = none ∧
      (missing = name ∧ user = rule ∨
        ∃ found, regular.get? user = some found ∧ missing ∈ found.dependencies ∧
          ReflTransGen regular.Inlines name user) := by
  induction depth generalizing rule name with
  | zero =>
    rw [inline, bind_eq_error] at h
    rcases h with h | ⟨_, -, h⟩
    · obtain ⟨hnone, rfl, rfl⟩ := resolve_eq_undefined.mp h
      exact ⟨hnone, .inl ⟨rfl, rfl⟩⟩
    · cases h
  | succ depth ih =>
    rw [inline, bind_eq_error] at h
    rcases h with h | ⟨found, hresolve, h⟩
    · obtain ⟨hnone, rfl, rfl⟩ := resolve_eq_undefined.mp h
      exact ⟨hnone, .inl ⟨rfl, rfl⟩⟩
    · obtain ⟨inner, hinner, h⟩ := Alternation.exists_undefined_of_expand h
      have hget := (resolve_eq_ok hresolve).1
      have hmem := Rule.mem_dependencies.mpr hinner
      obtain ⟨hnone, ⟨rfl, rfl⟩ | ⟨last, hlast, hrefers, hpath⟩⟩ := ih h
      · obtain rfl := (name_of_get? hget).2
        exact ⟨hnone, .inr ⟨found, hget, hmem, .refl⟩⟩
      · -- A name that leads to a rule has one itself, be it that one or the first on the way.
        have hcontains : regular.contains inner := by
          rcases hpath.cases_head with rfl | ⟨next, ⟨rule, hrule, -⟩, -⟩
          · exact contains_iff.mpr ⟨last, hlast⟩
          · exact contains_iff.mpr ⟨rule, hrule⟩
        exact ⟨hnone, .inr ⟨last, hlast, hrefers, hpath.head ⟨found, hget, hmem, hcontains⟩⟩⟩

end

/-! ### Classified rules -/

variable {rules : List Rule} {options : Options} {root missing user source target : String}

/-- What an expansion comes to is within reach. -/
lemma reaches_of_inlines (hnames : (rules.map Rule.name).Nodup)
    (h : ReflTransGen (classify rules).regular.Inlines source target) :
    ReflTransGen (RefersTo rules) source target := by
  refine ReflTransGen.mono (fun source target hstep => ?_) _ _ h
  obtain ⟨rule, hrule, hname, -⟩ := hstep
  obtain ⟨hregular, rfl⟩ := name_of_get? hrule
  exact refersTo_of_regular hnames hregular hname

lemma get?_eq_none_iff {regular : RegularRules} :
    regular.get? root = none ↔ ∀ rule ∈ regular.rules, rule.name ≠ root := by
  simp [get?]

/-- A name that a regular rule refers to, and that no lookup finds, is that of a self-resolvable
rule. -/
lemma selfResolvable_of_get?_eq_none {rule : Rule}
    (hrule : rule ∈ (classify rules).regular.rules) (hname : missing ∈ rule.dependencies)
    (hnone : (classify rules).regular.get? missing = none) :
    ∃ other ∈ (classify rules).selfResolvable, other.name = missing := by
  obtain ⟨before, after, heq⟩ := List.append_of_mem hrule
  refine (classify_regular_eq_append heq hname).resolve_left ?_
  rintro ⟨earlier, hearlier, hmissing⟩
  refine get?_eq_none_iff.mp hnone earlier ?_ hmissing
  rw [heq]
  exact List.mem_append_left _ hearlier

/-- Where names are defined once, what a compilation misses is its root or a self-resolvable rule
within reach, to which the rule in the error refers. -/
lemma selfResolvable_of_undefined (hnames : (rules.map Rule.name).Nodup)
    (h : (classify rules).regular.compile options root =
      .error (.expansion (.faulty (.undefinedRule missing) user))) :
    missing = root ∧ user = root ∧ (∀ rule ∈ (classify rules).regular.rules, rule.name ≠ root) ∨
    (∃ rule ∈ (classify rules).regular.rules, rule.name = root) ∧
      (∃ rule ∈ (classify rules).selfResolvable, rule.name = missing) ∧
      TransGen (RefersTo rules) root missing ∧
      ∃ rule ∈ (classify rules).regular.rules, rule.name = user ∧ missing ∈ rule.dependencies ∧
        ReflTransGen (RefersTo rules) root user := by
  obtain ⟨hnone, ⟨rfl, rfl⟩ | ⟨found, hfound, hmem, hpath⟩⟩ :=
    inline_eq_undefined (expand_eq_of_compile h)
  · exact .inl ⟨rfl, rfl, get?_eq_none_iff.mp hnone⟩
  · obtain ⟨hregular, rfl⟩ := name_of_get? hfound
    have hreach := reaches_of_inlines hnames hpath
    have hroot : ∃ rule ∈ (classify rules).regular.rules, rule.name = root := by
      rcases hpath.cases_head with rfl | ⟨next, ⟨rule, hrule, -⟩, -⟩
      · exact ⟨found, hregular, rfl⟩
      · exact ⟨rule, name_of_get? hrule⟩
    exact .inr ⟨hroot, selfResolvable_of_get?_eq_none hregular hmem hnone,
      .tail' hreach (refersTo_of_regular hnames hregular hmem),
      found, hregular, rfl, hmem, hreach⟩

/-- Where names are defined once, a compilation misses its root if this is not a regular rule.
Otherwise what it misses is a self-resolvable rule within reach of the root, and the error tells a
regular rule that refers to it. So nothing is missed where all rules are regular. -/
theorem undefined_is_selfResolvable (hnames : (rules.map Rule.name).Nodup) (options : Options)
    (root : String) :
    ((∀ rule ∈ (classify rules).regular.rules, rule.name ≠ root) →
      (classify rules).regular.compile options root =
        .error (.expansion (.faulty (.undefinedRule root) root))) ∧
    (∀ missing user, (classify rules).regular.compile options root =
        .error (.expansion (.faulty (.undefinedRule missing) user)) →
      missing = root ∧ user = root ∧ (∀ rule ∈ (classify rules).regular.rules, rule.name ≠ root) ∨
      (∃ rule ∈ (classify rules).regular.rules, rule.name = root) ∧
        (∃ rule ∈ (classify rules).selfResolvable, rule.name = missing) ∧
        TransGen (RefersTo rules) root missing ∧
        ∃ rule ∈ (classify rules).regular.rules, rule.name = user ∧ missing ∈ rule.dependencies ∧
          ReflTransGen (RefersTo rules) root user) ∧
    ((classify rules).isRegular → (∃ rule ∈ rules, rule.name = root) →
      ∀ missing user, (classify rules).regular.compile options root ≠
        .error (.expansion (.faulty (.undefinedRule missing) user))) := by
  refine ⟨fun hroot => ?_, fun _ _ => selfResolvable_of_undefined hnames, ?_⟩
  · have hresolve : (classify rules).regular.resolve root root =
        .error (.faulty (.undefinedRule root) root) :=
      resolve_eq_undefined.mpr ⟨get?_eq_none_iff.mpr hroot, rfl, rfl⟩
    have hexpand : (classify rules).regular.expand options root =
        .error (.faulty (.undefinedRule root) root) := inline_eq_error hresolve
    simp only [compile, hexpand]
  · rintro hall ⟨rule, hrule, hname⟩ missing user hcompile
    simp only [Classification.isRegular, Bool.and_eq_true, List.isEmpty_iff] at hall
    rw [mem_iff_found_or_unresolved, mem_found_iff, hall.1, hall.2] at hrule
    rcases selfResolvable_of_undefined hnames hcompile with
      ⟨-, -, hirregular⟩ | ⟨-, ⟨other, hother, -⟩, -⟩
    · exact hirregular rule (by simpa using hrule) hname
    · rw [hall.1] at hother
      cases hother

/-- The rules `page = "<" list ">"`, `list = [item] 2tail`, `tail = tail "," / item` and
`item = "i"`. -/
def pageRules : List Rule :=
  [⟨"page", .basic, [[.once (.literal [0x3C]), .once (.reference "list"),
      .once (.literal [0x3E])]]⟩,
    ⟨"list", .basic, [[.once (.option [[.once (.reference "item")]]),
      ⟨some (.count 2), .reference "tail"⟩]]⟩,
    ⟨"tail", .basic, [[.once (.reference "tail"), .once (.literal [0x2C])],
      [.once (.reference "item")]]⟩,
    ⟨"item", .basic, [[.once (.literal [0x69])]]⟩]

/-- A page lacks the tail of its list, which refers to itself. All nested rules are regular, so that
none of them lacks anything. -/
theorem undefined_is_selfResolvable_pageRules :
    (pageRules.map Rule.name).Nodup ∧
      (classify pageRules).regular.compile {} "page" =
        .error (.expansion (.faulty (.undefinedRule "tail") "list")) ∧
      (∃ rule ∈ (classify pageRules).selfResolvable, rule.name = "tail") ∧
      TransGen (RefersTo pageRules) "page" "tail" ∧
      (classify pageRules).regular.compile {} "tail" =
        .error (.expansion (.faulty (.undefinedRule "tail") "tail")) ∧
      (nestedRules.map Rule.name).Nodup ∧ (classify nestedRules).isRegular ∧
      ∀ missing user, (classify nestedRules).regular.compile {} "top" ≠
        .error (.expansion (.faulty (.undefinedRule missing) user)) := by
  have hnames : (pageRules.map Rule.name).Nodup := by decide
  have hnested : (nestedRules.map Rule.name).Nodup := by decide
  have hcompile : (classify pageRules).regular.compile {} "page" =
      .error (.expansion (.faulty (.undefinedRule "tail") "list")) := rfl
  have hregular : (classify nestedRules).isRegular := by decide
  obtain ⟨-, hcases, -⟩ := undefined_is_selfResolvable hnames {} "page"
  obtain ⟨htail, -, -⟩ := undefined_is_selfResolvable hnames {} "tail"
  obtain ⟨-, -, hnone⟩ := undefined_is_selfResolvable hnested {} "top"
  obtain ⟨-, hself, hreach, -⟩ := (hcases _ _ hcompile).resolve_left (by decide)
  exact ⟨hnames, hcompile, hself, hreach, htail (by decide), hnested, hregular,
    hnone hregular ⟨nestedRules[0], List.mem_cons_self, rfl⟩⟩

end RegularRules

end AugmentedBnf
