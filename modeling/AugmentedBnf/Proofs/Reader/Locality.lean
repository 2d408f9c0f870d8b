import AugmentedBnf.Proofs.Reader.Derivation

/-!
# Productions take words

What a production derives are the octets before what is left of an input, and it derives them whatever
is left. So a derivation can be carried over to any other input that begins with the same octets. Only
a comment at the end of a document depends on what is behind it, which is nothing.

* `Takes`: a production derives a word, whatever is left behind it.
* `IsLocal`: whatever a production derives is a word that it takes; `isLocal_blanks` and the like.
* `Alternation.Derives.exists_takes`, `Rule.Derives.exists_takes`: the same for rule bodies, and for
  rules that are not the last thing in their document.
-/

namespace AugmentedBnf

/-- A production takes a word off an input, whatever is left of the input. -/
def Takes (derives : List Octet → List Octet → Prop) (word : List Octet) : Prop :=
  ∀ rest, derives (word ++ rest) rest

/-- Whatever a production derives is a word that it takes. -/
def IsLocal (derives : List Octet → List Octet → Prop) : Prop :=
  ∀ input rest, derives input rest → ∃ word, input = word ++ rest ∧ Takes derives word

lemma isLocal_lineBreak : IsLocal LineBreak := by
  intro input rest h
  cases h with
  | returnAndFeed => exact ⟨['\r'.toUInt8, '\n'.toUInt8], rfl, .returnAndFeed⟩
  | feed => exact ⟨['\n'.toUInt8], rfl, .feed⟩

lemma Takes.comment {text word : List Octet} (htext : ∀ octet ∈ text, octet.isComment)
    (hbreak : Takes LineBreak word) : Takes LineEnd (';'.toUInt8 :: (text ++ word)) := by
  intro rest
  rw [List.cons_append, List.append_assoc]
  exact .comment htext (hbreak rest)

/-- A line end behind which something is left is no comment at the end of the document. -/
lemma LineEnd.exists_takes {input rest : List Octet} (h : LineEnd input rest) (hrest : rest ≠ []) :
    ∃ word, input = word ++ rest ∧ Takes LineEnd word := by
  cases h with
  | lineBreak hbreak =>
    obtain ⟨word, rfl, hword⟩ := isLocal_lineBreak _ _ hbreak
    exact ⟨word, rfl, fun rest => .lineBreak (hword rest)⟩
  | comment htext hbreak =>
    obtain ⟨word, rfl, hword⟩ := isLocal_lineBreak _ _ hbreak
    exact ⟨_, by rw [List.cons_append, List.append_assoc], .comment htext hword⟩
  | lastComment => exact absurd rfl hrest

lemma isLocal_blank : IsLocal Blank := by
  intro input rest h
  cases h with
  | @whiteSpace octet _ hspace => exact ⟨[octet], rfl, fun rest => .whiteSpace rest hspace⟩
  | @indentedLine _ octet _ hend hspace =>
    obtain ⟨word, rfl, hword⟩ := hend.exists_takes (List.cons_ne_nil octet rest)
    refine ⟨word ++ [octet], by simp, fun rest => ?_⟩
    rw [List.append_assoc]
    exact .indentedLine (hword (octet :: rest)) hspace

lemma isLocal_blanks : IsLocal Blanks := by
  intro input rest h
  induction h using Relation.ReflTransGen.head_induction_on with
  | refl => exact ⟨[], rfl, fun _ => .refl⟩
  | head hblank _ ih =>
    obtain ⟨word, rfl, hword⟩ := isLocal_blank _ _ hblank
    obtain ⟨others, heq, hothers⟩ := ih
    refine ⟨word ++ others, by rw [heq, List.append_assoc], fun rest => ?_⟩
    rw [List.append_assoc]
    exact .head (hword _) (hothers rest)

lemma isLocal_someBlanks : IsLocal SomeBlanks := by
  intro input rest h
  obtain ⟨middle, hblank, hblanks⟩ := Relation.TransGen.head'_iff.mp h
  obtain ⟨word, rfl, hword⟩ := isLocal_blank _ _ hblank
  obtain ⟨others, rfl, hothers⟩ := isLocal_blanks _ _ hblanks
  refine ⟨word ++ others, by rw [List.append_assoc], fun rest => ?_⟩
  rw [List.append_assoc]
  exact .head' (hword _) (hothers rest)

lemma isLocal_name (name : String) : IsLocal (NameDerives name) := by
  intro input rest h
  cases h with
  | @intro first tail _ hfirst htail =>
    exact ⟨first :: tail, rfl, fun rest => .intro rest hfirst htail⟩

lemma isLocal_number (radix : Radix) (number : UInt32) : IsLocal (radix.Derives number) := by
  intro input rest h
  cases h with
  | intro _ hne hdigits hvalue => exact ⟨_, rfl, fun rest => .intro rest hne hdigits hvalue⟩

lemma isLocal_bound (bound : Option UInt32) : IsLocal (BoundDerives bound) := by
  intro input rest h
  cases h with
  | absent => exact ⟨[], rfl, .absent⟩
  | present hnumber =>
    obtain ⟨word, rfl, hword⟩ := isLocal_number _ _ _ _ hnumber
    exact ⟨word, rfl, fun rest => .present (hword rest)⟩

lemma isLocal_bounds (bounds : Repeat) : IsLocal bounds.Derives := by
  intro input rest h
  cases h with
  | count hnumber =>
    obtain ⟨word, rfl, hword⟩ := isLocal_number _ _ _ _ hnumber
    exact ⟨word, rfl, fun rest => .count (hword rest)⟩
  | between hmin hmax =>
    obtain ⟨first, rfl, hfirst⟩ := isLocal_bound _ _ _ hmin
    obtain ⟨second, rfl, hsecond⟩ := isLocal_bound _ _ _ hmax
    refine ⟨first ++ '*'.toUInt8 :: second, by simp, fun rest => ?_⟩
    rw [List.append_assoc]
    exact .between (hfirst _) (hsecond rest)

lemma isLocal_members (radix : Radix) (numbers : List UInt32) :
    IsLocal (radix.DerivesMembers numbers) := by
  intro input rest h
  induction h with
  | nil => exact ⟨[], rfl, .nil⟩
  | cons hnumber _ ih =>
    obtain ⟨word, rfl, hword⟩ := isLocal_number _ _ _ _ hnumber
    obtain ⟨others, rfl, htakes⟩ := ih
    refine ⟨'.'.toUInt8 :: (word ++ others), by simp, fun rest => ?_⟩
    rw [List.cons_append, List.append_assoc]
    exact .cons (hword _) (htakes rest)

lemma Takes.sequence {radix : Radix} {letter : Octet} {first : UInt32} {others : List UInt32}
    {word behind : List Octet} (hletter : letter.toLower = radix.letter)
    (hfirst : Takes (radix.Derives first) word)
    (hothers : Takes (radix.DerivesMembers others) behind) :
    Takes (Numeric.Derives ⟨radix, false, first :: others⟩)
      ('%'.toUInt8 :: letter :: (word ++ behind)) := by
  intro rest
  rw [List.cons_append, List.cons_append, List.append_assoc]
  exact .sequence hletter (hfirst _) (hothers rest)

lemma Takes.range {radix : Radix} {letter : Octet} {lower upper : UInt32} {word behind : List Octet}
    (hletter : letter.toLower = radix.letter) (hlower : Takes (radix.Derives lower) word)
    (hupper : Takes (radix.Derives upper) behind) :
    Takes (Numeric.Derives ⟨radix, true, [lower, upper]⟩)
      ('%'.toUInt8 :: letter :: (word ++ '-'.toUInt8 :: behind)) := by
  intro rest
  rw [List.cons_append, List.cons_append, List.append_assoc]
  exact .range hletter (hlower _) (hupper rest)

lemma isLocal_numeric (value : Numeric) : IsLocal value.Derives := by
  intro input rest h
  cases h with
  | sequence hletter hfirst hothers =>
    obtain ⟨word, rfl, hword⟩ := isLocal_number _ _ _ _ hfirst
    obtain ⟨other, rfl, hother⟩ := isLocal_members _ _ _ _ hothers
    exact ⟨_, by simp only [List.cons_append, List.append_assoc],
      Takes.sequence hletter hword hother⟩
  | range hletter hlower hupper =>
    obtain ⟨word, rfl, hword⟩ := isLocal_number _ _ _ _ hlower
    obtain ⟨other, rfl, hother⟩ := isLocal_number _ _ _ _ hupper
    exact ⟨_, by simp only [List.cons_append, List.append_assoc],
      Takes.range hletter hword hother⟩

/-! ### Rule bodies -/

/-- Groups and options are taken alike. -/
lemma Takes.bracketed {opening closing : Octet} {make : Alternation → Element} {body : Alternation}
    {before word behind : List Octet}
    (hmake : ∀ {inside start stop rest}, Blanks inside start → body.Derives start stop →
      Blanks stop (closing :: rest) → (make body).Derives (opening :: inside) rest)
    (hbefore : Takes Blanks before) (hbody : Takes body.Derives word)
    (hbehind : Takes Blanks behind) :
    Takes (make body).Derives (opening :: (before ++ (word ++ (behind ++ [closing])))) := by
  intro rest
  simp only [List.cons_append, List.append_assoc, List.nil_append]
  exact hmake (hbefore _) (hbody _) (hbehind _)

mutual

lemma Element.Derives.exists_takes {element : Element} {input rest : List Octet} :
    element.Derives input rest → ∃ word, input = word ++ rest ∧ Takes element.Derives word
  | .reference hname => by
    obtain ⟨word, rfl, hword⟩ := isLocal_name _ _ _ hname
    exact ⟨word, rfl, fun rest => .reference (hword rest)⟩
  | .group hstart hbody hstop => by
    obtain ⟨before, rfl, hbefore⟩ := isLocal_blanks _ _ hstart
    obtain ⟨word, rfl, hword⟩ := Alternation.Derives.exists_takes hbody
    obtain ⟨behind, rfl, hbehind⟩ := isLocal_blanks _ _ hstop
    exact ⟨_, by simp only [List.cons_append, List.append_assoc, List.nil_append],
      Takes.bracketed .group hbefore hword hbehind⟩
  | .option hstart hbody hstop => by
    obtain ⟨before, rfl, hbefore⟩ := isLocal_blanks _ _ hstart
    obtain ⟨word, rfl, hword⟩ := Alternation.Derives.exists_takes hbody
    obtain ⟨behind, rfl, hbehind⟩ := isLocal_blanks _ _ hstop
    exact ⟨_, by simp only [List.cons_append, List.append_assoc, List.nil_append],
      Takes.bracketed .option hbefore hword hbehind⟩
  | @Element.Derives.literal octets _ hoctets => by
    refine ⟨'"'.toUInt8 :: (octets ++ ['"'.toUInt8]), by simp, fun rest => ?_⟩
    simp only [List.cons_append, List.append_assoc, List.nil_append]
    exact .literal rest hoctets
  | .numeric hvalue => by
    obtain ⟨word, rfl, hword⟩ := isLocal_numeric _ _ _ hvalue
    exact ⟨word, rfl, fun rest => .numeric (hword rest)⟩
  | @Element.Derives.prose octets _ hoctets => by
    refine ⟨'<'.toUInt8 :: (octets ++ ['>'.toUInt8]), by simp, fun rest => ?_⟩
    simp only [List.cons_append, List.append_assoc, List.nil_append]
    exact .prose rest hoctets

lemma Repetition.Derives.exists_takes {repetition : Repetition} {input rest : List Octet} :
    repetition.Derives input rest → ∃ word, input = word ++ rest ∧ Takes repetition.Derives word
  | .once helement => by
    obtain ⟨word, rfl, hword⟩ := Element.Derives.exists_takes helement
    exact ⟨word, rfl, fun rest => .once (hword rest)⟩
  | .repeated hbounds helement => by
    obtain ⟨first, rfl, hfirst⟩ := isLocal_bounds _ _ _ hbounds
    obtain ⟨word, rfl, hword⟩ := Element.Derives.exists_takes helement
    refine ⟨first ++ word, by rw [List.append_assoc], fun rest => ?_⟩
    rw [List.append_assoc]
    exact .repeated (hfirst _) (hword rest)

lemma Concatenation.Derives.exists_takes {concatenation : Concatenation}
    {input rest : List Octet} :
    concatenation.Derives input rest →
      ∃ word, input = word ++ rest ∧ Takes concatenation.Derives word
  | .single hrepetition => by
    obtain ⟨word, rfl, hword⟩ := Repetition.Derives.exists_takes hrepetition
    exact ⟨word, rfl, fun rest => .single (hword rest)⟩
  | .cons hrepetition hblanks hothers => by
    obtain ⟨word, rfl, hword⟩ := Repetition.Derives.exists_takes hrepetition
    obtain ⟨between, rfl, hbetween⟩ := isLocal_someBlanks _ _ hblanks
    obtain ⟨behind, rfl, hbehind⟩ := Concatenation.Derives.exists_takes hothers
    refine ⟨word ++ (between ++ behind), by simp, fun rest => ?_⟩
    simp only [List.append_assoc]
    exact .cons (hword _) (hbetween _) (hbehind rest)

lemma Alternation.Derives.exists_takes {alternation : Alternation} {input rest : List Octet} :
    alternation.Derives input rest →
      ∃ word, input = word ++ rest ∧ Takes alternation.Derives word
  | .single hbranch => by
    obtain ⟨word, rfl, hword⟩ := Concatenation.Derives.exists_takes hbranch
    exact ⟨word, rfl, fun rest => .single (hword rest)⟩
  | .cons hbranch hstop hstart hothers => by
    obtain ⟨word, rfl, hword⟩ := Concatenation.Derives.exists_takes hbranch
    obtain ⟨left, rfl, hleft⟩ := isLocal_blanks _ _ hstop
    obtain ⟨right, rfl, hright⟩ := isLocal_blanks _ _ hstart
    obtain ⟨behind, rfl, hbehind⟩ := Alternation.Derives.exists_takes hothers
    refine ⟨word ++ (left ++ '/'.toUInt8 :: (right ++ behind)), by simp, fun rest => ?_⟩
    simp only [List.append_assoc, List.cons_append]
    exact .cons (hword _) (hleft _) (hright _) (hbehind rest)

end

lemma isLocal_marker (marker : Marker) : IsLocal marker.Derives := by
  intro input rest h
  cases h with
  | basic hbefore hbehind =>
    obtain ⟨left, rfl, hleft⟩ := isLocal_blanks _ _ hbefore
    obtain ⟨right, rfl, hright⟩ := isLocal_blanks _ _ hbehind
    refine ⟨left ++ '='.toUInt8 :: right, by simp, fun rest => ?_⟩
    rw [List.append_assoc]
    exact .basic (hleft _) (hright rest)
  | incremental hbefore hbehind =>
    obtain ⟨left, rfl, hleft⟩ := isLocal_blanks _ _ hbefore
    obtain ⟨right, rfl, hright⟩ := isLocal_blanks _ _ hbehind
    refine ⟨left ++ '='.toUInt8 :: '/'.toUInt8 :: right, by simp, fun rest => ?_⟩
    rw [List.append_assoc]
    exact .incremental (hleft _) (hright rest)

lemma isLocal_body (body : Alternation) : IsLocal body.DerivesBody := by
  intro input rest h
  obtain ⟨stop, hbody, hblanks⟩ := h
  obtain ⟨word, rfl, hword⟩ := hbody.exists_takes
  obtain ⟨behind, rfl, hbehind⟩ := isLocal_blanks _ _ hblanks
  refine ⟨word ++ behind, by rw [List.append_assoc], fun rest => ?_⟩
  rw [List.append_assoc]
  exact ⟨_, hword _, hbehind rest⟩

lemma Takes.rule {name : String} {marker : Marker} {body : Alternation}
    {first second third last : List Octet} (hname : Takes (NameDerives name) first)
    (hmarker : Takes marker.Derives second) (hbody : Takes body.DerivesBody third)
    (hend : Takes LineEnd last) :
    Takes (Rule.Derives ⟨name, marker, body⟩) (first ++ (second ++ (third ++ last))) := by
  intro rest
  simp only [List.append_assoc]
  exact .intro (hname _) (hmarker _) (hbody _) (.lineEnd (hend rest))

/-- A rule behind which something is left does not end with the document. -/
lemma Rule.Derives.exists_takes {rule : Rule} {input rest : List Octet}
    (h : rule.Derives input rest) (hrest : rest ≠ []) :
    ∃ word, input = word ++ rest ∧ Takes rule.Derives word := by
  cases h with
  | intro hname hmarker hbody hend =>
    obtain ⟨first, rfl, hfirst⟩ := isLocal_name _ _ _ hname
    obtain ⟨second, rfl, hsecond⟩ := isLocal_marker _ _ _ hmarker
    obtain ⟨third, rfl, hthird⟩ := isLocal_body _ _ _ hbody
    cases hend with
    | lineEnd hend =>
      obtain ⟨last, rfl, hlast⟩ := hend.exists_takes hrest
      exact ⟨first ++ (second ++ (third ++ last)), by simp only [List.append_assoc],
        Takes.rule hfirst hsecond hthird hlast⟩
    | endOfInput => exact absurd rfl hrest

end AugmentedBnf
