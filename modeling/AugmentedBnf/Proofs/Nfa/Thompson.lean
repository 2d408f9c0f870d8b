import Mathlib.Algebra.Order.Kleene
import AugmentedBnf.Nfa.Thompson
import AugmentedBnf.Proofs.Nfa.Walk
import AugmentedBnf.Proofs.Pattern.Language

/-!
# The language of the automaton of a pattern

The parts of a pattern share their states: branches have the same entry and exit, and a loop stays
at the exit that it is given. A walk may therefore go on at an exit with a loop that another branch
has left there. The words that it spells so are the traces of the pattern, and the automaton accepts
these, neither more nor fewer.

* `Pattern.language_le_traces`: what a pattern describes is among its traces.
* `Nfa.language_ofPattern?`: the automaton of a pattern accepts its traces.
-/

namespace AugmentedBnf

open Computability

namespace Pattern

mutual

/-- The words spelled between the entry and the exit of a pattern, where any loop at the exit may be
walked before the pattern is left. -/
def traces : Pattern → Language Octet
  | skip => 1
  | oneOf octets => (oneOf octets).language
  | seq first second => first.traces * second.traces
  | union first second => (first.traces + second.traces) * (first.loops + second.loops)∗
  | star body => (body.traces + body.loops)∗
  | plus body => body.traces * (body.traces + body.loops)∗

/-- The words spelled by the loops that a pattern leaves at its exit. -/
def loops : Pattern → Language Octet
  | skip | oneOf _ => 0
  | seq _ second => second.loops
  | union first second => first.loops + second.loops
  | star body | plus body => body.traces + body.loops

end

/-- A trace stays one if a loop is walked behind it. -/
lemma traces_mul_loops_le (pattern : Pattern) :
    pattern.traces * pattern.loops ≤ pattern.traces := by
  induction pattern with
  | skip | oneOf => simp [loops]
  | seq first second _ ih =>
    rw [traces, loops, mul_assoc]
    gcongr
  | union first second _ _ =>
    rw [traces, loops, mul_assoc]
    gcongr
    exact kstar_mul_le_kstar
  | star body _ => exact kstar_mul_le_kstar
  | plus body _ =>
    rw [traces, loops, mul_assoc]
    gcongr
    exact kstar_mul_le_kstar

lemma append_mem_traces {pattern : Pattern} {v w : List Octet} (hv : v ∈ pattern.traces)
    (hw : w ∈ pattern.loops) : v ++ w ∈ pattern.traces :=
  pattern.traces_mul_loops_le (Language.append_mem_mul hv hw)

lemma traces_mul_kstar_loops (pattern : Pattern) :
    pattern.traces * pattern.loops∗ = pattern.traces :=
  le_antisymm (mul_kstar_le_self pattern.traces_mul_loops_le)
    (le_mul_of_one_le_right' one_le_kstar)

/-- What a pattern describes is among its traces. -/
lemma language_le_traces (pattern : Pattern) : pattern.language ≤ pattern.traces := by
  induction pattern with
  | skip | oneOf => exact le_rfl
  | seq first second ihf ihs =>
    rw [language, traces]
    gcongr
  | union first second ihf ihs =>
    rw [language, traces]
    calc first.language + second.language
        ≤ first.traces + second.traces := by gcongr
      _ ≤ (first.traces + second.traces) * (first.loops + second.loops)∗ :=
        le_mul_of_one_le_right' one_le_kstar
  | star body ih =>
    rw [language, traces]
    exact kstar_mono (ih.trans le_self_add)
  | plus body ih =>
    rw [language, traces]
    have := ih.trans (le_self_add (b := body.loops))
    gcongr

/-! ### Connecting -/

variable {builder builder' : Builder} {entry exit : StateId} {word : List Octet}

lemma connect_seq {first second : Pattern} :
    (seq first second).connect entry exit builder = some builder' ↔
      ∃ next, first.connect entry builder.size builder.addState.2 = some next ∧
        second.connect builder.size exit next = some builder' := by
  simp only [connect, Option.bind_eq_bind, Option.bind_eq_some_iff, Builder.addState_fst]

lemma connect_union {first second : Pattern} :
    (union first second).connect entry exit builder = some builder' ↔
      ∃ next, first.connect entry exit builder = some next ∧
        second.connect entry exit next = some builder' := by
  simp only [connect, Option.bind_eq_bind, Option.bind_eq_some_iff]

lemma connect_star {body : Pattern} :
    (star body).connect entry exit builder = some builder' ↔
      ∃ next, builder.addEpsilon? entry exit = some next ∧
        body.connect exit exit next = some builder' := by
  simp only [connect, Option.bind_eq_bind, Option.bind_eq_some_iff]

lemma connect_plus {body : Pattern} :
    (plus body).connect entry exit builder = some builder' ↔
      ∃ next, body.connect entry exit builder = some next ∧
        body.connect exit exit next = some builder' := by
  simp only [connect, Option.bind_eq_bind, Option.bind_eq_some_iff]

lemma extends_connect {pattern : Pattern}
    (h : pattern.connect entry exit builder = some builder') : builder.Extends builder' := by
  induction pattern generalizing entry exit builder builder' with
  | skip => exact Builder.extends_addEpsilon? h
  | oneOf octets =>
    obtain ⟨hsize, hjoins⟩ := Builder.joins_foldlM_addTransition? h
    exact ⟨hsize.ge, fun hedge => (hjoins _ _ _).mpr (.inl hedge)⟩
  | seq first second ihf ihs =>
    obtain ⟨next, hfirst, hsecond⟩ := connect_seq.mp h
    exact Builder.extends_addState.trans ((ihf hfirst).trans (ihs hsecond))
  | union first second ihf ihs =>
    obtain ⟨next, hfirst, hsecond⟩ := connect_union.mp h
    exact (ihf hfirst).trans (ihs hsecond)
  | star body ih =>
    obtain ⟨next, hskip, hloop⟩ := connect_star.mp h
    exact (Builder.extends_addEpsilon? hskip).trans (ih hloop)
  | plus body ih =>
    obtain ⟨next, honce, hloop⟩ := connect_plus.mp h
    exact (ih honce).trans (ih hloop)

/-- There is nothing to hinder connecting a pattern between allocated states. -/
lemma exists_connect (pattern : Pattern) (hentry : entry < builder.size)
    (hexit : exit < builder.size) :
    ∃ builder', pattern.connect entry exit builder = some builder' := by
  induction pattern generalizing entry exit builder with
  | skip => exact Builder.exists_modify? hentry _
  | oneOf octets => exact Builder.exists_foldlM_addTransition? hentry octets
  | seq first second ihf ihs =>
    have hmiddle : builder.size < builder.addState.2.size := by simp
    obtain ⟨next, hfirst⟩ := ihf (hentry.trans hmiddle) hmiddle
    have hsize := (extends_connect hfirst).size_le
    obtain ⟨builder', hsecond⟩ :=
      ihs (hmiddle.trans_le hsize) ((hexit.trans hmiddle).trans_le hsize)
    exact ⟨builder', connect_seq.mpr ⟨next, hfirst, hsecond⟩⟩
  | union first second ihf ihs =>
    obtain ⟨next, hfirst⟩ := ihf hentry hexit
    have hsize := (extends_connect hfirst).size_le
    obtain ⟨builder', hsecond⟩ := ihs (hentry.trans_le hsize) (hexit.trans_le hsize)
    exact ⟨builder', connect_union.mpr ⟨next, hfirst, hsecond⟩⟩
  | star body ih =>
    obtain ⟨next, hskip⟩ : ∃ next, builder.addEpsilon? entry exit = some next :=
      Builder.exists_modify? hentry _
    have hsize := (Builder.size_addEpsilon? hskip).ge
    obtain ⟨builder', hloop⟩ := ih (hexit.trans_le hsize) (hexit.trans_le hsize)
    exact ⟨builder', connect_star.mpr ⟨next, hskip, hloop⟩⟩
  | plus body ih =>
    obtain ⟨next, honce⟩ := ih hentry hexit
    have hsize := (extends_connect honce).size_le
    obtain ⟨builder', hloop⟩ := ih (hexit.trans_le hsize) (hexit.trans_le hsize)
    exact ⟨builder', connect_plus.mpr ⟨next, honce, hloop⟩⟩

/-- Every trace is spelled from the entry to the exit, and every loop at the exit. -/
lemma walk_connect {pattern : Pattern}
    (h : pattern.connect entry exit builder = some builder') :
    (∀ word ∈ pattern.traces, Walk builder'.states entry word exit) ∧
      ∀ word ∈ pattern.loops, Walk builder'.states exit word exit := by
  induction pattern generalizing entry exit builder builder' with
  | skip =>
    refine ⟨fun word hword => ?_, fun word hword => hword.elim⟩
    obtain rfl : word = [] := hword
    exact .epsilon ((Builder.joins_addEpsilon? h).mpr (.inr ⟨rfl, rfl, rfl⟩))
  | oneOf octets =>
    refine ⟨fun word hword => ?_, fun word hword => hword.elim⟩
    obtain ⟨octet, hoctet, rfl⟩ := hword
    obtain ⟨-, hjoins⟩ := Builder.joins_foldlM_addTransition? h
    exact .octet ((hjoins _ _ _).mpr (.inr ⟨rfl, rfl, octet, hoctet, rfl⟩))
  | seq first second ihf ihs =>
    obtain ⟨next, hfirst, hsecond⟩ := connect_seq.mp h
    refine ⟨?_, (ihs hsecond).2⟩
    rintro _ ⟨v, hv, w, hw, rfl⟩
    exact ((extends_connect hsecond).walk ((ihf hfirst).1 v hv)).append ((ihs hsecond).1 w hw)
  | union first second ihf ihs =>
    obtain ⟨next, hfirst, hsecond⟩ := connect_union.mp h
    have hext := extends_connect hsecond
    -- Both branches leave their loops at the one exit that they share.
    have hloops : ∀ w ∈ first.loops + second.loops, Walk builder'.states exit w exit := by
      rintro w (hw | hw)
      · exact hext.walk ((ihf hfirst).2 w hw)
      · exact (ihs hsecond).2 w hw
    refine ⟨?_, hloops⟩
    rintro _ ⟨v, hv | hv, w, hw, rfl⟩
    · exact (hext.walk ((ihf hfirst).1 v hv)).append (.kstar hloops hw)
    · exact ((ihs hsecond).1 v hv).append (.kstar hloops hw)
  | star body ih =>
    obtain ⟨next, hskip, hloop⟩ := connect_star.mp h
    have hloops : ∀ w ∈ body.traces + body.loops, Walk builder'.states exit w exit := by
      rintro w (hw | hw)
      · exact (ih hloop).1 w hw
      · exact (ih hloop).2 w hw
    have hedge : Walk next.states entry [] exit :=
      .epsilon ((Builder.joins_addEpsilon? hskip).mpr (.inr ⟨rfl, rfl, rfl⟩))
    refine ⟨fun w hw => ?_, hloops⟩
    exact ((extends_connect hloop).walk hedge).append (.kstar hloops hw)
  | plus body ih =>
    obtain ⟨next, honce, hloop⟩ := connect_plus.mp h
    have hloops : ∀ w ∈ body.traces + body.loops, Walk builder'.states exit w exit := by
      rintro w (hw | hw)
      · exact (ih hloop).1 w hw
      · exact (ih hloop).2 w hw
    refine ⟨?_, hloops⟩
    rintro _ ⟨v, hv, w, hw, rfl⟩
    exact ((extends_connect hloop).walk ((ih honce).1 v hv)).append (.kstar hloops hw)

/-! ### Tails of the states between -/

/-- Wherever the pattern is connected, tails that take up its traces at the entry and its loops at the
exit can be prolonged to the states between. -/
def KeepsTails (pattern : Pattern) : Prop :=
  ∀ ⦃entry exit : StateId⦄ ⦃builder builder' : Builder⦄ ⦃tails : StateId → Language Octet⦄,
    pattern.connect entry exit builder = some builder' →
    entry < builder.size → exit < builder.size → builder.HasTails tails →
    pattern.traces * tails exit ≤ tails entry → pattern.loops * tails exit ≤ tails exit →
    ∃ tails', (∀ id < builder.size, tails' id = tails id) ∧ builder'.HasTails tails'

variable {first second body : Pattern}

lemma keepsTails_skip : skip.KeepsTails := by
  intro entry exit builder builder' tails h _ hexit htails htraces _
  rw [traces, one_mul] at htraces
  exact ⟨tails, fun _ _ => rfl, htails.addEpsilon? hexit h htraces⟩

lemma keepsTails_oneOf (octets : List Octet) : (oneOf octets).KeepsTails := by
  intro entry exit builder builder' tails h _ hexit htails htraces _
  refine ⟨tails, fun _ _ => rfl, htails.foldlM_addTransition? hexit h ?_⟩
  intro octet hoctet w hw
  exact htraces (Language.append_mem_mul (mem_language_oneOf.mpr ⟨octet, hoctet, rfl⟩) hw)

lemma KeepsTails.seq (hfirst : first.KeepsTails) (hsecond : second.KeepsTails) :
    (seq first second).KeepsTails := by
  intro entry exit builder builder' tails h hentry hexit htails htraces hloops
  obtain ⟨next, hconnect, hconnect'⟩ := connect_seq.mp h
  -- A tail of the middle state walks the loops of the first part before it enters the second.
  set l := first.loops∗ * (second.traces * tails exit) with hl
  have hmiddle : builder.size < builder.addState.2.size := by simp
  have hupdate : ∀ id < builder.size, Function.update tails builder.size l id = tails id :=
    fun id hid => Function.update_of_ne hid.ne l tails
  have hfirstTraces : first.traces * l ≤ tails entry := by
    rw [hl, ← mul_assoc, traces_mul_kstar_loops, ← mul_assoc]
    exact htraces
  have hfirstLoops : first.loops * l ≤ l := by
    rw [hl, ← mul_assoc]
    gcongr
    exact mul_kstar_le_kstar
  obtain ⟨tails₁, heq₁, htails₁⟩ := hfirst hconnect (hentry.trans hmiddle) hmiddle
    (htails.addState l) (by rwa [Function.update_self, hupdate _ hentry])
    (by rwa [Function.update_self])
  have hsize := (extends_connect hconnect).size_le
  have hold : ∀ id < builder.size, tails₁ id = tails id := by
    intro id hid
    rw [heq₁ id (hid.trans hmiddle), hupdate id hid]
  have hsecondTraces : second.traces * tails₁ exit ≤ tails₁ builder.size := by
    rw [heq₁ _ hmiddle, Function.update_self, hold _ hexit, hl]
    exact le_mul_of_one_le_left' one_le_kstar
  obtain ⟨tails₂, heq₂, htails₂⟩ := hsecond hconnect' (hmiddle.trans_le hsize)
    ((hexit.trans hmiddle).trans_le hsize) htails₁ hsecondTraces (by rwa [hold _ hexit])
  refine ⟨tails₂, fun id hid => ?_, htails₂⟩
  rw [heq₂ id ((hid.trans hmiddle).trans_le hsize), hold id hid]

lemma KeepsTails.union (hfirst : first.KeepsTails) (hsecond : second.KeepsTails) :
    (union first second).KeepsTails := by
  intro entry exit builder builder' tails h hentry hexit htails htraces hloops
  obtain ⟨next, hconnect, hconnect'⟩ := connect_union.mp h
  have hsize := (extends_connect hconnect).size_le
  have htraces : first.traces * tails exit + second.traces * tails exit ≤ tails entry := by
    rw [← add_mul]
    refine le_trans ?_ htraces
    rw [traces]
    gcongr
    exact le_mul_of_one_le_right' one_le_kstar
  rw [loops, add_mul] at hloops
  rw [add_le_iff] at htraces hloops
  obtain ⟨tails₁, heq₁, htails₁⟩ := hfirst hconnect hentry hexit htails htraces.1 hloops.1
  -- The second branch is between states whose tails have stayed as they were.
  rw [← heq₁ _ hentry, ← heq₁ _ hexit] at htraces
  rw [← heq₁ _ hexit] at hloops
  obtain ⟨tails₂, heq₂, htails₂⟩ := hsecond hconnect' (hentry.trans_le hsize)
    (hexit.trans_le hsize) htails₁ htraces.2 hloops.2
  exact ⟨tails₂, fun id hid => (heq₂ id (hid.trans_le hsize)).trans (heq₁ id hid), htails₂⟩

lemma KeepsTails.star (hbody : body.KeepsTails) : (star body).KeepsTails := by
  intro entry exit builder builder' tails h _ hexit htails htraces hloops
  obtain ⟨next, hskip, hloop⟩ := connect_star.mp h
  have hsize := Builder.size_addEpsilon? hskip
  rw [loops, add_mul, add_le_iff] at hloops
  have hle : tails exit ≤ tails entry := by
    refine le_trans ?_ htraces
    exact le_mul_of_one_le_left' one_le_kstar
  -- The body is connected between the exit and itself, where its traces are loops.
  obtain ⟨tails₁, heq₁, htails₁⟩ := hbody hloop (hsize ▸ hexit) (hsize ▸ hexit)
    (htails.addEpsilon? hexit hskip hle) hloops.1 hloops.2
  exact ⟨tails₁, fun id hid => heq₁ id (hsize ▸ hid), htails₁⟩

lemma KeepsTails.plus (hbody : body.KeepsTails) : (plus body).KeepsTails := by
  intro entry exit builder builder' tails h hentry hexit htails htraces hloops
  obtain ⟨next, honce, hloop⟩ := connect_plus.mp h
  have hsize := (extends_connect honce).size_le
  rw [loops, add_mul, add_le_iff] at hloops
  have htraces : body.traces * tails exit ≤ tails entry := by
    refine le_trans ?_ htraces
    rw [traces]
    gcongr
    exact le_mul_of_one_le_right' one_le_kstar
  obtain ⟨tails₁, heq₁, htails₁⟩ := hbody honce hentry hexit htails htraces hloops.2
  rw [← heq₁ _ hexit] at hloops
  obtain ⟨tails₂, heq₂, htails₂⟩ := hbody hloop (hexit.trans_le hsize) (hexit.trans_le hsize)
    htails₁ hloops.1 hloops.2
  exact ⟨tails₂, fun id hid => (heq₂ id (hid.trans_le hsize)).trans (heq₁ id hid), htails₂⟩

lemma keepsTails (pattern : Pattern) : pattern.KeepsTails := by
  induction pattern with
  | skip => exact keepsTails_skip
  | oneOf octets => exact keepsTails_oneOf octets
  | seq first second ihf ihs => exact ihf.seq ihs
  | union first second ihf ihs => exact ihf.union ihs
  | star body ih => exact ih.star
  | plus body ih => exact ih.plus

end Pattern

/-! ### The whole automaton -/

/-- The automaton of a pattern is the pattern connected between the first two states. -/
lemma Nfa.ofPattern?_eq_some {pattern : Pattern} {nfa : Nfa}
    (h : Nfa.ofPattern? pattern = some nfa) :
    ∃ builder, pattern.connect 0 1 Builder.empty.addState.2.addState.2 = some builder ∧
      nfa = builder.finish 0 [1] := by
  simp only [ofPattern?, Option.bind_eq_bind, Option.bind_eq_some_iff] at h
  obtain ⟨builder, hconnect, hnfa⟩ := h
  exact ⟨builder, hconnect, (Option.some.inj hnfa).symm⟩

lemma Nfa.exists_ofPattern? (pattern : Pattern) : ∃ nfa, Nfa.ofPattern? pattern = some nfa := by
  obtain ⟨builder, hconnect⟩ :
      ∃ builder, pattern.connect 0 1 Builder.empty.addState.2.addState.2 = some builder :=
    pattern.exists_connect (by simp) (by simp)
  refine ⟨builder.finish 0 [1], ?_⟩
  rw [ofPattern?, Option.bind_eq_bind, Option.bind_eq_some_iff]
  exact ⟨builder, hconnect, rfl⟩

lemma Builder.isAccepting_finish {builder : Builder} {entry exit id : StateId} :
    (builder.finish entry [exit]).isAccepting id ↔ id = exit := by
  simp [finish, Nfa.isAccepting, @eq_comm _ id]

/-- The automaton of a pattern accepts its traces, neither more nor fewer words. -/
lemma Nfa.language_ofPattern? {pattern : Pattern} {nfa : Nfa}
    (h : Nfa.ofPattern? pattern = some nfa) : nfa.language = pattern.traces := by
  obtain ⟨builder, hconnect, rfl⟩ := ofPattern?_eq_some h
  ext word
  rw [mem_language]
  constructor
  · rintro ⟨target, htarget, hwalk⟩
    obtain rfl := Builder.isAccepting_finish.mp htarget
    -- From the exit loops are left to be spelled, and from the entry traces.
    let tails : StateId → Language Octet := fun id => if id = 0 then pattern.traces
      else pattern.loops∗
    have hisolated : ∀ {p label q},
        ¬ Joins Builder.empty.addState.2.addState.2.states p label q := by simp
    have hzero : 0 < Builder.empty.addState.2.addState.2.size := by simp
    have hone : 1 < Builder.empty.addState.2.addState.2.size := by simp
    have htails : Builder.empty.addState.2.addState.2.HasTails tails :=
      ⟨fun hedge => (hisolated hedge).elim, fun _ _ _ hedge => (hisolated hedge).elim⟩
    obtain ⟨tails', heq, htails'⟩ := pattern.keepsTails hconnect hzero hone htails
      pattern.traces_mul_kstar_loops.le mul_kstar_le_kstar
    have hnil : [] ∈ tails' 1 := by
      rw [heq 1 hone]
      exact Language.nil_mem_kstar _
    have hword : word ++ [] ∈ tails' 0 := htails'.closed.append_mem hwalk hnil
    rwa [List.append_nil, heq 0 hzero] at hword
  · intro hword
    exact ⟨1, Builder.isAccepting_finish.mpr rfl, (Pattern.walk_connect hconnect).1 word hword⟩

end AugmentedBnf
