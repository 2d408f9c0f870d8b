import AugmentedBnf.Proofs.Expansion.Inlining

/-!
# The faults of an expansion

A walk goes through what a name stands for, from left to right and into the rules that it comes to,
and takes down every fault it meets. It builds nothing, and it knows no depth: where rules are inside
of each other without an end, there is no walk. What a walk takes down first is what an expansion
tells, and an expansion has a pattern if a walk takes down nothing.

* `Alternation.expand_eq_error`: an error of a body is a fault of its own or that of a name in it.
* `NameWalk`, `Alternation.Walk` and the like: the faults of a name, of a body and of its parts.
* `NameWalk.reports`: an expansion tells the first fault of a walk.
* `Alternation.exists_walk`: there is a walk through a body if there is one for each name in it.
-/

namespace AugmentedBnf

inductive Repeat.HasFault (options : Options) (bounds : Repeat) : Fault → Prop where
  /-- They need more copies than are allowed: the maximum, or else the minimum. -/
  | tooLarge {count} (hcount : (bounds.maximum options.countMode).getD bounds.min = count)
      (hlimit : options.repeatLimit < count) :
      Repeat.HasFault options bounds (.repeatTooLarge count options.repeatLimit)
  /-- They contradict each other. -/
  | invalid {max} (hmax : bounds.maximum options.countMode = some max)
      (hlimit : max ≤ options.repeatLimit) (hmin : max < bounds.min) :
      Repeat.HasFault options bounds (.invalidRepeat bounds.min max)

inductive Numeric.HasFault (mode : RangeMode) (value : Numeric) : Fault → Prop where
  /-- The first of its numbers that is no octet. -/
  | outOfRange {before number after} (hvalues : value.values = before ++ number :: after)
      (hbefore : ∀ other ∈ before, other ≤ 0xFF) (hnumber : 0xFF < number) :
      Numeric.HasFault mode value (.valueOutOfRange number)
  /-- Two octets as the bounds of a range that has none between them. -/
  | invalidRange {lower upper} (hmode : mode = .inclusive) (hranged : value.ranged = true)
      (hvalues : value.values = [lower, upper]) (hlower : lower ≤ 0xFF) (hupper : upper ≤ 0xFF)
      (hlt : upper < lower) :
      Numeric.HasFault mode value (.invalidRange lower.toUInt8 upper.toUInt8)

lemma Repeat.fault?_eq_some {bounds : Repeat} {options : Options} {fault : Fault} :
    bounds.fault? options = some fault ↔ bounds.HasFault options fault := by
  simp only [fault?]
  constructor
  · intro h
    split_ifs at h with hlimit
    · cases h
      exact .tooLarge rfl hlimit
    · split at h
      · next max hmax =>
        split_ifs at h with hmin
        · cases h
          rw [hmax, Option.getD_some, UInt32.not_lt] at hlimit
          exact .invalid hmax hlimit hmin
      · cases h
  · intro h
    cases h with
    | tooLarge hcount hlimit =>
      subst hcount
      rw [if_pos hlimit]
    | invalid hmax hlimit hmin =>
      rw [← UInt32.not_lt] at hlimit
      simp only [hmax, Option.getD_some, hlimit, hmin, if_false, if_true]

lemma Repeat.fault?_eq_none {bounds : Repeat} {options : Options} :
    bounds.fault? options = none ↔ ∀ fault, ¬ bounds.HasFault options fault := by
  simp only [Option.eq_none_iff_forall_ne_some, ne_eq, fault?_eq_some]

lemma Numeric.fault?_eq_some {value : Numeric} {mode : RangeMode} {fault : Fault} :
    value.fault? mode = some fault ↔ value.HasFault mode fault := by
  simp only [fault?]
  constructor
  · intro h
    split at h
    · next number hnumber =>
      cases h
      rw [List.find?_eq_some_iff_append] at hnumber
      obtain ⟨hnumber, before, after, hvalues, hbefore⟩ := hnumber
      refine .outOfRange hvalues (fun other hother => ?_) (of_decide_eq_true hnumber)
      simpa [UInt32.not_lt] using hbefore other hother
    · next hnone =>
      split at h
      · next hranged hvalues =>
        split_ifs at h with hlt
        cases h
        simp only [hvalues, List.find?_eq_none, decide_eq_true_eq, UInt32.not_lt,
          List.forall_mem_cons] at hnone
        exact .invalidRange rfl hranged hvalues hnone.1 hnone.2.1 hlt
      · cases h
  · intro h
    cases h with
    | @outOfRange before number after hvalues hbefore hnumber =>
      have hfind : value.values.find? (0xFF < ·) = some number := by
        rw [List.find?_eq_some_iff_append]
        refine ⟨decide_eq_true hnumber, before, after, hvalues, fun other hother => ?_⟩
        simpa [UInt32.not_lt] using hbefore other hother
      rw [hfind]
    | @invalidRange lower upper hmode hranged hvalues hlower hupper hlt =>
      have hfind : value.values.find? (0xFF < ·) = none := by
        simp [hvalues, UInt32.not_lt, hlower, hupper]
      rw [hfind]
      simp only [hmode, hranged, hvalues, hlt, if_true]

lemma Numeric.fault?_eq_none {value : Numeric} {mode : RangeMode} :
    value.fault? mode = none ↔ ∀ fault, ¬ value.HasFault mode fault := by
  simp only [Option.eq_none_iff_forall_ne_some, ne_eq, fault?_eq_some]

/-! ### Errors of a body -/

/-- A fault of a body that no name in it is to blame for. -/
inductive Fault.IsOwn (options : Options) : Fault → Prop where
  | emptyAlternation : Fault.IsOwn options .emptyAlternation
  | bounds {bounds : Repeat} {fault} (hfault : bounds.HasFault options fault) :
      Fault.IsOwn options fault
  | numeric {value : Numeric} {fault} (hfault : value.HasFault options.rangeMode fault) :
      Fault.IsOwn options fault

/-- An error of a body in a rule is a fault of its own, or else that of one of the names in it. -/
def IsErrorOf (options : Options) (rule : String) (inline : String → Except ExpansionError Pattern)
    (names : List String) (error : ExpansionError) : Prop :=
  (∃ fault : Fault, fault.IsOwn options ∧ error = .faulty fault rule) ∨
    ∃ name ∈ names, inline name = .error error

section

variable {options : Options} {rule : String} {inline : String → Except ExpansionError Pattern}
  {error : ExpansionError} {names others : List String}

lemma IsErrorOf.append_left (h : IsErrorOf options rule inline names error) :
    IsErrorOf options rule inline (names ++ others) error :=
  h.imp_right fun ⟨name, hname, hinline⟩ => ⟨name, List.mem_append_left _ hname, hinline⟩

lemma IsErrorOf.append_right (h : IsErrorOf options rule inline others error) :
    IsErrorOf options rule inline (names ++ others) error :=
  h.imp_right fun ⟨name, hname, hinline⟩ => ⟨name, List.mem_append_right _ hname, hinline⟩

mutual

lemma Element.expand_eq_error : ∀ element : Element,
    element.expand options rule inline = .error error →
      IsErrorOf options rule inline element.references error
  | .reference name, h => .inr ⟨name, List.mem_cons_self, h⟩
  | .group body, h => Alternation.expand_eq_error body h
  | .option body, h => by
    rw [Element.expand, bind_eq_error] at h
    rcases h with h | ⟨_, -, h⟩
    · exact Alternation.expand_eq_error body h
    · cases h
  | .literal _, h | .prose _, h => by cases h
  | .numeric value, h => by
    rw [Element.expand] at h
    split at h
    · next fault hfault =>
      cases h
      exact .inl ⟨fault, .numeric (Numeric.fault?_eq_some.mp hfault), rfl⟩
    · cases h

lemma Repetition.expand_eq_error : ∀ repetition : Repetition,
    repetition.expand options rule inline = .error error →
      IsErrorOf options rule inline repetition.references error
  | ⟨none, element⟩, h => Element.expand_eq_error element h
  | ⟨some bounds, element⟩, h => by
    rw [Repetition.expand] at h
    split at h
    · next fault hfault =>
      cases h
      exact .inl ⟨fault, .bounds (Repeat.fault?_eq_some.mp hfault), rfl⟩
    · split_ifs at h
      rcases bind_eq_error.mp h with h | ⟨_, -, h⟩
      · exact Element.expand_eq_error element h
      · cases h

lemma Concatenation.expand_eq_error : ∀ branch : Concatenation,
    Concatenation.expand options rule inline branch = .error error →
      IsErrorOf options rule inline (Concatenation.references branch) error
  | [], h => by cases h
  | [repetition], h => (Repetition.expand_eq_error repetition h).append_left
  | repetition :: next :: rest, h => by
    simp only [Concatenation.expand, bind_eq_error] at h
    rcases h with h | ⟨_, -, h | ⟨_, -, h⟩⟩
    · exact (Repetition.expand_eq_error repetition h).append_left
    · exact (Concatenation.expand_eq_error (next :: rest) h).append_right
    · cases h

/-- An error of a body is a fault of its own, which is told with the rule of the body, or that of a
name that the body refers to. -/
lemma Alternation.expand_eq_error : ∀ body : Alternation,
    Alternation.expand options rule inline body = .error error →
      IsErrorOf options rule inline (Alternation.references body) error
  | [], h => by
    cases h
    exact .inl ⟨_, .emptyAlternation, rfl⟩
  | [branch], h => (Concatenation.expand_eq_error branch h).append_left
  | branch :: next :: rest, h => by
    simp only [Alternation.expand, bind_eq_error] at h
    rcases h with h | ⟨_, -, h | ⟨_, -, h⟩⟩
    · exact (Concatenation.expand_eq_error branch h).append_left
    · exact (Alternation.expand_eq_error (next :: rest) h).append_right
    · cases h

end

end

/-! ### Walks -/

section

variable (regular : RegularRules) (options : Options)

mutual

/-- A walk through what a name in the body of a rule stands for, with the faults it meets. -/
inductive NameWalk : (rule name : String) → (faults : List ExpansionError) → Prop where
  | undefined {rule name} (hname : regular.get? name = none) :
      NameWalk rule name [.faulty (.undefinedRule name) rule]
  | incremental {rule name found} (hname : regular.get? name = some found)
      (hmarker : found.marker = .incremental) :
      NameWalk rule name [.faulty (.incrementalRule name) rule]
  | basic {rule name found faults} (hname : regular.get? name = some found)
      (hmarker : found.marker = .basic) (hbody : Alternation.Walk name found.body faults) :
      NameWalk rule name faults

inductive Element.Walk : (rule : String) → Element → (faults : List ExpansionError) → Prop where
  | reference {rule name faults} (hname : NameWalk rule name faults) :
      Element.Walk rule (.reference name) faults
  | group {rule body faults} (hbody : Alternation.Walk rule body faults) :
      Element.Walk rule (.group body) faults
  | option {rule body faults} (hbody : Alternation.Walk rule body faults) :
      Element.Walk rule (.option body) faults
  | literal {rule octets} : Element.Walk rule (.literal octets) []
  | prose {rule octets} : Element.Walk rule (.prose octets) []
  | numericFault {rule value fault} (hfault : value.HasFault options.rangeMode fault) :
      Element.Walk rule (.numeric value) [.faulty fault rule]
  | numeric {rule value} (hnone : ∀ fault, ¬ value.HasFault options.rangeMode fault) :
      Element.Walk rule (.numeric value) []

inductive Repetition.Walk : (rule : String) → Repetition → (faults : List ExpansionError) → Prop where
  | once {rule element faults} (helement : Element.Walk rule element faults) :
      Repetition.Walk rule ⟨none, element⟩ faults
  | boundsFault {rule bounds element fault} (hfault : bounds.HasFault options fault) :
      Repetition.Walk rule ⟨some bounds, element⟩ [.faulty fault rule]
  /-- A count of zero keeps the walk from the element. -/
  | never {rule bounds element} (hnone : ∀ fault, ¬ bounds.HasFault options fault)
      (hstarred : bounds.starred = false) (hmin : bounds.min = 0)
      (hmax : bounds.maximum options.countMode = some 0) :
      Repetition.Walk rule ⟨some bounds, element⟩ []
  | repeated {rule bounds element faults} (hnone : ∀ fault, ¬ bounds.HasFault options fault)
      (hsome : ¬ (bounds.starred = false ∧ bounds.min = 0 ∧
        bounds.maximum options.countMode = some 0))
      (helement : Element.Walk rule element faults) :
      Repetition.Walk rule ⟨some bounds, element⟩ faults

inductive Concatenation.Walk :
    (rule : String) → Concatenation → (faults : List ExpansionError) → Prop where
  | nil {rule} : Concatenation.Walk rule [] []
  | cons {rule repetition rest faults others}
      (hrepetition : Repetition.Walk rule repetition faults)
      (hrest : Concatenation.Walk rule rest others) :
      Concatenation.Walk rule (repetition :: rest) (faults ++ others)

inductive Alternation.Walk :
    (rule : String) → Alternation → (faults : List ExpansionError) → Prop where
  | empty {rule} : Alternation.Walk rule [] [.faulty .emptyAlternation rule]
  | single {rule branch faults} (hbranch : Concatenation.Walk rule branch faults) :
      Alternation.Walk rule [branch] faults
  | cons {rule branch next rest faults others} (hbranch : Concatenation.Walk rule branch faults)
      (hrest : Alternation.Walk rule (next :: rest) others) :
      Alternation.Walk rule (branch :: next :: rest) (faults ++ others)

end

end

/-- An answer tells the first of some faults, or gives a pattern if there are none, unless it is
endless. -/
def Reports (answer : Except ExpansionError Pattern) (faults : List ExpansionError) : Prop :=
  IsEndless answer ∨
    match faults with
    | [] => ∃ pattern, answer = .ok pattern
    | first :: _ => answer = .error first

namespace Reports

variable {answer : Except ExpansionError Pattern} {faults others : List ExpansionError}

lemma ok (pattern : Pattern) : Reports (.ok pattern) [] := .inr ⟨pattern, rfl⟩

lemma error (error : ExpansionError) : Reports (.error error) [error] := .inr rfl

/-- Two answers after each other tell the faults after each other. -/
lemma bind {next : Pattern → Except ExpansionError Pattern} (h : Reports answer faults)
    (hnext : ∀ pattern, Reports (next pattern) others) :
    Reports (answer >>= next) (faults ++ others) := by
  rcases h with hendless | h
  · exact .inl (isEndless_bind.mpr (.inl hendless))
  · cases faults with
    | nil =>
      obtain ⟨pattern, rfl⟩ := h
      exact hnext pattern
    | cons first faults =>
      obtain rfl : answer = .error first := h
      exact .inr rfl

/-- What is made of a pattern has no more faults. -/
lemma map (f : Pattern → Pattern) (h : Reports answer faults) :
    Reports (answer >>= fun pattern => .ok (f pattern)) faults := by
  have hmap := h.bind fun pattern => ok (f pattern)
  rwa [List.append_nil] at hmap

end Reports

section

variable {regular : RegularRules} {options : Options}

mutual

/-- An expansion of a name tells the first fault of a walk. -/
lemma NameWalk.reports (depth : Nat) {rule name : String} {faults : List ExpansionError} :
    NameWalk regular options rule name faults →
      Reports (regular.inline options depth rule name) faults
  | .undefined hname => by
    have hfault : regular.resolve rule name = .error (.faulty (.undefinedRule name) rule) := by
      simp only [RegularRules.resolve, hname]
    rw [RegularRules.inline_eq_error hfault]
    exact .error _
  | .incremental hname hmarker => by
    have hfault : regular.resolve rule name = .error (.faulty (.incrementalRule name) rule) := by
      simp only [RegularRules.resolve, hname, hmarker]
    rw [RegularRules.inline_eq_error hfault]
    exact .error _
  | @NameWalk.basic _ _ _ name found _ hname hmarker hbody => by
    have hfound : regular.resolve rule name = .ok found := by
      simp only [RegularRules.resolve, hname, hmarker]
    cases depth with
    | zero =>
      rw [RegularRules.inline_zero hfound]
      exact .inl ⟨_, rfl⟩
    | succ depth =>
      rw [RegularRules.inline_succ hfound, (RegularRules.name_of_get? hname).2]
      exact Alternation.Walk.reports depth hbody

lemma Element.Walk.reports (depth : Nat) {rule : String} {element : Element}
    {faults : List ExpansionError} :
    Element.Walk regular options rule element faults →
      Reports (element.expand options rule (regular.inline options depth rule)) faults
  | .reference hname => NameWalk.reports depth hname
  | .group hbody => Alternation.Walk.reports depth hbody
  | .option hbody => (Alternation.Walk.reports depth hbody).map (.union .skip)
  | .literal => .ok _
  | .prose => .ok _
  | .numericFault hfault => by
    simp only [Element.expand, Numeric.fault?_eq_some.mpr hfault]
    exact .error _
  | .numeric hnone => by
    simp only [Element.expand, Numeric.fault?_eq_none.mpr hnone]
    exact .ok _

lemma Repetition.Walk.reports (depth : Nat) {rule : String} {repetition : Repetition}
    {faults : List ExpansionError} :
    Repetition.Walk regular options rule repetition faults →
      Reports (repetition.expand options rule (regular.inline options depth rule)) faults
  | .once helement => Element.Walk.reports depth helement
  | .boundsFault hfault => by
    simp only [Repetition.expand, Repeat.fault?_eq_some.mpr hfault]
    exact .error _
  | .never hnone hstarred hmin hmax => by
    simp only [Repetition.expand, Repeat.fault?_eq_none.mpr hnone,
      Repeat.isZero_iff.mpr ⟨hstarred, hmin, hmax⟩, if_true]
    exact .ok _
  | .repeated hnone hsome helement => by
    rw [← Repeat.isZero_iff] at hsome
    simp only [Repetition.expand, Repeat.fault?_eq_none.mpr hnone, hsome]
    exact (Element.Walk.reports depth helement).map _

lemma Concatenation.Walk.reports (depth : Nat) {rule : String} {branch : Concatenation}
    {faults : List ExpansionError} :
    Concatenation.Walk regular options rule branch faults →
      Reports (Concatenation.expand options rule (regular.inline options depth rule) branch) faults
  | .nil => .ok _
  | .cons hrepetition .nil => by
    rw [List.append_nil]
    exact Repetition.Walk.reports depth hrepetition
  | .cons hrepetition (.cons hnext hrest) => by
    refine (Repetition.Walk.reports depth hrepetition).bind fun first => ?_
    exact (Concatenation.Walk.reports depth (.cons hnext hrest)).map (.seq first)

lemma Alternation.Walk.reports (depth : Nat) {rule : String} {body : Alternation}
    {faults : List ExpansionError} :
    Alternation.Walk regular options rule body faults →
      Reports (Alternation.expand options rule (regular.inline options depth rule) body) faults
  | .empty => .error _
  | .single hbranch => Concatenation.Walk.reports depth hbranch
  | .cons hbranch hrest => by
    refine (Concatenation.Walk.reports depth hbranch).bind fun first => ?_
    exact (Alternation.Walk.reports depth hrest).map (.union first)

end

variable {rule : String}

mutual

lemma Element.exists_walk : ∀ element : Element,
    (∀ name ∈ element.references, ∃ faults, NameWalk regular options rule name faults) →
      ∃ faults, element.Walk regular options rule faults
  | .reference name, h => by
    obtain ⟨faults, hname⟩ := h name List.mem_cons_self
    exact ⟨faults, .reference hname⟩
  | .group body, h => by
    obtain ⟨faults, hbody⟩ := Alternation.exists_walk body h
    exact ⟨faults, .group hbody⟩
  | .option body, h => by
    obtain ⟨faults, hbody⟩ := Alternation.exists_walk body h
    exact ⟨faults, .option hbody⟩
  | .literal _, _ => ⟨[], .literal⟩
  | .prose _, _ => ⟨[], .prose⟩
  | .numeric value, _ => by
    by_cases hfault : ∃ fault, value.HasFault options.rangeMode fault
    · obtain ⟨fault, hfault⟩ := hfault
      exact ⟨_, .numericFault hfault⟩
    · exact ⟨[], .numeric (not_exists.mp hfault)⟩

lemma Repetition.exists_walk : ∀ repetition : Repetition,
    (∀ name ∈ repetition.references, ∃ faults, NameWalk regular options rule name faults) →
      ∃ faults, repetition.Walk regular options rule faults
  | ⟨none, element⟩, h => by
    obtain ⟨faults, helement⟩ := Element.exists_walk element h
    exact ⟨faults, .once helement⟩
  | ⟨some bounds, element⟩, h => by
    by_cases hfault : ∃ fault, bounds.HasFault options fault
    · obtain ⟨fault, hfault⟩ := hfault
      exact ⟨_, .boundsFault hfault⟩
    · have hnone := not_exists.mp hfault
      by_cases hzero : bounds.starred = false ∧ bounds.min = 0 ∧
          bounds.maximum options.countMode = some 0
      · exact ⟨[], .never hnone hzero.1 hzero.2.1 hzero.2.2⟩
      · obtain ⟨faults, helement⟩ := Element.exists_walk element h
        exact ⟨faults, .repeated hnone hzero helement⟩

lemma Concatenation.exists_walk : ∀ branch : Concatenation,
    (∀ name ∈ Concatenation.references branch,
      ∃ faults, NameWalk regular options rule name faults) →
      ∃ faults, Concatenation.Walk regular options rule branch faults
  | [], _ => ⟨[], .nil⟩
  | repetition :: rest, h => by
    obtain ⟨faults, hrepetition⟩ := Repetition.exists_walk repetition fun name hname =>
      h name (List.mem_append_left _ hname)
    obtain ⟨others, hrest⟩ := Concatenation.exists_walk rest fun name hname =>
      h name (List.mem_append_right _ hname)
    exact ⟨faults ++ others, .cons hrepetition hrest⟩

/-- There is a walk through a body if there is one for every name that the body refers to. -/
lemma Alternation.exists_walk : ∀ body : Alternation,
    (∀ name ∈ Alternation.references body,
      ∃ faults, NameWalk regular options rule name faults) →
      ∃ faults, Alternation.Walk regular options rule body faults
  | [], _ => ⟨_, .empty⟩
  | [branch], h => by
    obtain ⟨faults, hbranch⟩ := Concatenation.exists_walk branch fun name hname =>
      h name (List.mem_append_left _ hname)
    exact ⟨faults, .single hbranch⟩
  | branch :: next :: rest, h => by
    obtain ⟨faults, hbranch⟩ := Concatenation.exists_walk branch fun name hname =>
      h name (List.mem_append_left _ hname)
    obtain ⟨others, hrest⟩ := Alternation.exists_walk (next :: rest) fun name hname =>
      h name (List.mem_append_right _ hname)
    exact ⟨faults ++ others, .cons hbranch hrest⟩

end

end

end AugmentedBnf
