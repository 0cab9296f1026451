import PhpDoc.Proofs.FixedPoints
import Mathlib.Data.Finset.Dedup
import Mathlib.Data.Finset.Max
/-!
The normal form of types, for atoms of any kind. Unions and intersections make it, so that whatever
is read from a tag has it if the templates stand for types that have it.
-/
namespace PhpDoc
namespace Hierarchy
variable {h : Hierarchy} {a b w x : String} {as : List String} {m n : Member} {ms : List Member}
  {t : DocType}

abbrev IsLate (a : String) : Prop :=
  Text.beginsWith "static(" a = true

def bound (a : String) : String :=
  Text.slice a 7 (a.length - 1)

theorem IsLate.exists_eq (hl : IsLate a) :
    ∃ cs, a.toList = ['s', 't', 'a', 't', 'i', 'c', '('] ++ cs := by
  have hword : ("static(" : String).toList = ['s', 't', 'a', 't', 'i', 'c', '('] := by decide
  obtain ⟨cs, hcs⟩ := List.isPrefixOf_iff_prefix.mp hl
  exact ⟨cs, by rw [← hcs, hword]⟩

theorem IsLate.length_bound_lt (hl : IsLate a) : (bound a).length < a.length := by
  obtain ⟨cs, hcs⟩ := hl.exists_eq
  rw [bound, Text.slice, String.length_ofList, ← String.length_toList, hcs]
  simp only [List.length_drop, List.length_take, List.length_append, List.length_cons,
    List.length_nil]
  omega

theorem Absolute.mem_superTypes_of_isLate (ha : h.Absolute) (hl : IsLate a) :
    x ∈ h.superTypes a ↔
      x ∈ ["static", "self", "parent", "object"] ∨ x = bound a ∨ h.Ancestor (bound a) x := by
  obtain ⟨cs, hcs⟩ := hl.exists_eq
  have hwalk : h.superTypes a = walk h.rows
      (superTypesTo h.rows ((h.flatMap fun r => r.2.parents).length + 1)) (listed h.rows (bound a))
      [bound a] (adjoin ["static", "self", "parent", "object"] (bound a)) := by
    rw [superTypes, superTypesTo, wordParents_lookup_eq_none (by simp [hcs])]
    exact if_pos hl
  rw [hwalk, ha.mem_walk_parents _ (by simp [mem_adjoin]), mem_adjoin, or_assoc]
  by_cases hx : x = bound a <;> simp [hx]

theorem not_isLate_of_ancestor (ha : h.Absolute) (hx : h.Ancestor b x) : ¬IsLate x := by
  intro hl
  obtain ⟨cs, hcs⟩ := hl.exists_eq
  obtain ⟨p, -, hp⟩ := Relation.TransGen.tail'_iff.mp hx
  rcases (ha.of_listed hp).2 with hn | rfl | rfl
  · obtain ⟨ds, hds⟩ := isAbsolute_iff.mp hn
    rw [hcs] at hds
    exact absurd (List.cons.inj hds).1 (by decide)
  · revert hl
    decide
  · revert hl
    decide

/-- A text that is bound late is a supertype only of texts that are bound to it. -/
theorem Absolute.eq_bound_of_isLate (ha : h.Absolute) (hx : x ∈ h.superTypes a) (hl : IsLate x) :
    IsLate a ∧ x = bound a := by
  by_cases hla : IsLate a
  · rcases (ha.mem_superTypes_of_isLate hla).mp hx with hw | he | hup
    · have hall : ∀ w ∈ ["static", "self", "parent", "object"], ¬IsLate w := by decide
      exact absurd hl (hall x hw)
    · exact ⟨hla, he⟩
    · exact absurd hl (not_isLate_of_ancestor ha hup)
  · by_cases hn : IsAbsolute a
    · rcases (ha.mem_superTypes_name hn).mp hx with rfl | ⟨-, hup⟩
      · exact absurd hl (by decide)
      · exact absurd hl (not_isLate_of_ancestor ha hup)
    · rw [superTypes_word (by simpa using hla) hn] at hx
      obtain ⟨ps, hp, hx⟩ := mem_wordParents hx
      have hall : ∀ r ∈ wordParents, ∀ s ∈ r.2, ¬IsLate s := by decide
      exact absurd hl (hall _ hp x hx)

/-- What is no atom and is not bound late has no supertypes. -/
theorem superTypes_eq_nil (hl : ¬IsLate a) (hf : ¬IsAtom a) : h.superTypes a = [] := by
  have hkeys : ∀ r ∈ wordParents, ∀ c ∈ r.1.toList, c ≠ '\\' ∧ c ≠ '(' ∧ c ≠ ')' := by decide
  rw [superTypes_word (by simpa using hl) fun hn => hf (.name a hn)]
  refine List.eq_nil_iff_forall_not_mem.mpr fun x hx => ?_
  obtain ⟨ps, hp, -⟩ := mem_wordParents hx
  exact hf (.word a (hkeys _ hp))

/-- Some text of a list is no supertype of the others: the longest one that is bound late, or else
one of the atoms. -/
theorem Absolute.exists_lowest (ha : h.Absolute) (hc : h.Acyclic) (hne : as ≠ []) :
    ∃ a ∈ as, ∀ b ∈ as, a ∉ h.superTypes b := by
  classical
  by_cases hlate : ∃ a ∈ as, IsLate a
  · obtain ⟨a₀, ha₀, hl₀⟩ := hlate
    obtain ⟨a, hmem, hmax⟩ := (as.filter (Text.beginsWith "static(")).toFinset.exists_max_image
      String.length ⟨a₀, by simpa using ⟨ha₀, hl₀⟩⟩
    obtain ⟨haas, hla⟩ : a ∈ as ∧ IsLate a := by simpa using hmem
    refine ⟨a, haas, fun b hb hab => ?_⟩
    obtain ⟨hlb, rfl⟩ := ha.eq_bound_of_isLate hab hla
    have hle := hmax b (by simpa using ⟨hb, hlb⟩)
    exact absurd hlb.length_bound_lt (Nat.not_lt.mpr hle)
  · have hlate : ∀ a ∈ as, ¬IsLate a := fun a haas hla => hlate ⟨a, haas, hla⟩
    by_cases hatoms : as.filter IsAtom = []
    · obtain ⟨a, haas⟩ := List.exists_mem_of_ne_nil as hne
      have hloose : ∀ b ∈ as, ¬IsAtom b := by simpa [List.filter_eq_nil_iff] using hatoms
      exact ⟨a, haas, fun b hb => by simp [superTypes_eq_nil (hlate b hb) (hloose b hb)]⟩
    · obtain ⟨a, hmem, hleast⟩ := ha.exists_least hc
        (fun b hb => by simpa using (List.mem_filter.mp hb).2) hatoms
      refine ⟨a, (List.mem_filter.mp hmem).1, fun b hb => ?_⟩
      by_cases hf : IsAtom b
      · exact hleast b (List.mem_filter.mpr ⟨hb, by simpa using hf⟩)
      · simp [superTypes_eq_nil (hlate b hb) hf]

/-- A member in normal form: atoms in strict order, and several of them only if they are object-like
and none is a supertype of another one. -/
structure NormalMember (h : Hierarchy) (m : Member) : Prop where
  nonempty : m ≠ []
  sorted : m.Pairwise (· < ·)
  named : ∀ a ∈ m, a ≠ "" ∧ IsUncut a
  objects : 2 ≤ m.length → ∀ a ∈ m, h.isObjectLike a = true ∧ a ≠ "mixed" ∧ a ≠ "never"
  tidy : ∀ a ∈ m, ∀ b ∈ m, b ≠ a → b ∉ h.superTypes a

def NormalMembers (h : Hierarchy) (ms : List Member) : Prop :=
  ms ≠ [] ∧ ∀ m ∈ ms, h.NormalMember m

/-- A type in normal form: members in normal form and in strict order, none of which fits another
one. A type that has `mixed` or `never` in it is just that. -/
structure IsNormal (h : Hierarchy) (t : DocType) : Prop where
  nonempty : t.members ≠ []
  sorted : Member.Sorted t.members
  members : ∀ m ∈ t.members, h.NormalMember m
  extremes : ∀ w ∈ ["mixed", "never"], ∀ m ∈ t.members, w ∈ m → t = .atom w
  irredundant : ∀ m ∈ t.members, ∀ n ∈ t.members, m ≠ n → h.fits ⟨[m]⟩ ⟨[n]⟩ = false

theorem NormalMember.isPlain (hm : h.NormalMember m) : m.IsPlain :=
  ⟨hm.nonempty, fun a ha => (hm.named a ha).2⟩

theorem IsNormal.normalMembers (ht : h.IsNormal t) : h.NormalMembers t.members :=
  ⟨ht.nonempty, ht.members⟩

/-- A type in normal form is read off its text. -/
theorem IsNormal.ofText_text (ht : h.IsNormal t) : DocType.ofText t.text = t :=
  DocType.ofText_text ht.nonempty fun m hm => (ht.members m hm).isPlain

theorem normalMember_singleton (hne : a ≠ "") (hu : IsUncut a) : h.NormalMember [a] where
  nonempty := by simp
  sorted := List.pairwise_singleton _ _
  named := by simpa using ⟨hne, hu⟩
  objects hlen := absurd hlen (by simp)
  tidy := by
    intro b hb c hc hne
    simp_all

theorem normalMember_constant (hw : w ∈ Grammar.constants) : h.NormalMember [w] := by
  have hnamed : ∀ w ∈ Grammar.constants, w ≠ "" := by decide
  exact normalMember_singleton (hnamed w hw) (Grammar.isPlainAtom_constant hw).uncut

/-- A member with an atom that may not be intersected has no other atom. -/
theorem NormalMember.eq_singleton (hm : h.NormalMember m) (ha : a ∈ m)
    (hw : a ∈ ["mixed", "never"]) : m = [a] := by
  by_cases hlen : 2 ≤ m.length
  · obtain ⟨-, hmixed, hnever⟩ := hm.objects hlen a ha
    simp [hmixed, hnever] at hw
  · match m, hm.nonempty, hlen with
    | [b], _, _ => rw [List.mem_singleton.mp ha]
    | b :: c :: rest, _, hlen => simp at hlen

/-- A single member in normal form is a type in normal form. -/
theorem NormalMember.isNormal (hm : h.NormalMember m) : h.IsNormal ⟨[m]⟩ where
  nonempty := by simp
  sorted := List.pairwise_singleton _ _
  members := by simpa using hm
  extremes w hw n hn hwn := by
    obtain rfl := List.mem_singleton.mp hn
    rw [hm.eq_singleton hwn hw]
    rfl
  irredundant := by simp

theorem ne_of_isObjectLike (ho : h.isObjectLike a = true) : a ≠ "mixed" ∧ a ≠ "never" := by
  constructor
  · rintro rfl
    simp [isObjectLike_mixed] at ho
  · rintro rfl
    simp [isObjectLike_never] at ho

theorem Absolute.normalMember_intersection (ha : h.Absolute) (hc : h.Acyclic)
    (has : ∀ a ∈ as, a ≠ "" ∧ IsUncut a) (hi : h.intersection as = some m) : h.NormalMember m := by
  obtain rfl | rfl | ⟨a, hmem, rfl⟩ | ⟨bs, n, hne, hsub, hn, rfl⟩ :=
    intersection_cases (fun a hmem => (has a hmem).2) hi
  · exact normalMember_constant (by decide)
  · exact normalMember_constant (by decide)
  · exact normalMember_singleton (has a hmem).1 (has a hmem).2
  · obtain ⟨a, hab, hlow⟩ := ha.exists_lowest hc hne
    have hnn : n ≠ [] := List.ne_nil_of_mem ((hn.mem_iff a).mpr ⟨hab, hlow⟩)
    have hin : ∀ b ∈ n, b ∈ bs := fun b hb => ((hn.mem_iff b).mp hb).1
    rw [if_neg hnn]
    refine ⟨hnn, hn.sorted, fun b hb => has b (hsub (hin b hb)), fun _ b hb => ?_,
      fun b hb d hd _ => ((hn.mem_iff d).mp hd).2 b (hin b hb)⟩
    have hobj := hn.objects b (hin b hb)
    exact ⟨hobj, ne_of_isObjectLike hobj⟩

theorem isNormal_union (hms : h.NormalMembers ms) : h.IsNormal (h.union ms) := by
  obtain ⟨hs, hne, hsub⟩ := separate_union (h := h) (fun m hm => (hms.2 m hm).isPlain) hms.1
  refine ⟨hne, hs.sorted, fun m hm => hms.2 m (hsub hm), fun w hw m hm hwm => ?_,
    fun m hm n hn hmn => ?_⟩
  · have hword : [w] ∈ (h.union ms).members := (hms.2 m (hsub hm)).eq_singleton hwm hw ▸ hm
    exact congrArg DocType.mk (hs.eq_singleton hword hw)
  · refine Bool.eq_false_iff.mpr fun hfits => hmn ?_
    exact (hs.irredundant n hn m hm (fits_singleton.mp hfits)).symm

structure IsNamedAtom (a : String) : Prop extends IsPlainAtom a where
  ne_empty : a ≠ ""

theorem normalMembers_of_membersOf (hms : h.MembersOf IsNamedAtom ms) : h.NormalMembers ms := by
  refine ⟨hms.1, fun m hm => ?_⟩
  obtain ⟨hmem, hnamed⟩ := hms.2 m hm
  refine ⟨hmem.nonempty, hmem.sorted, fun a ha => ⟨(hnamed a ha).ne_empty, hmem.uncut a ha⟩,
    fun hlen a ha => ?_, hmem.tidy⟩
  have hobj : h.isObjectLike a = true := by
    rcases hmem.objects with ⟨b, rfl⟩ | hall
    · exact absurd hlen (by simp)
    · exact hall a ha
  exact ⟨hobj, ne_of_isObjectLike hobj⟩

theorem isNamedAtom_constant (hw : w ∈ Grammar.constants) : IsNamedAtom w :=
  ⟨Grammar.isPlainAtom_constant hw, ((normalMember_constant (h := []) hw).named w (by simp)).1⟩

theorem isNamedAtom_class {n : String} (hn : IsClassName n) : IsNamedAtom n := by
  refine ⟨hn.isPlainAtom, ?_⟩
  rintro rfl
  exact absurd hn.isAbsolute (by decide)

theorem isNamedAtom_lateBound {n : String} (hn : IsClassName n) : IsNamedAtom (lateBound n) := by
  refine ⟨.lateBound hn, fun he => ?_⟩
  have hlist := congrArg String.toList he
  simp [toList_lateBound] at hlist

/-- Without templates all atoms have names if the names that the scope knows are absolute. -/
theorem Absolute.atomInvariant_named (ha : h.Absolute) (hc : h.Acyclic) {scope : Scope}
    (hs : scope.IsNamed) (ht : scope.templates = []) (wide : Bool) :
    Grammar.AtomInvariant ⟨scope, h, wide⟩ IsNamedAtom where
  plain a ha := ha.toIsPlainAtom
  constant w hw := isNamedAtom_constant hw
  self := known_cases ⟨isPlainAtom_word (by decide), by decide⟩ fun n hn he =>
    isNamedAtom_class ((hs.className n hn).resolve_left he)
  parent := known_cases ⟨isPlainAtom_word (by decide), by decide⟩ fun n hn he =>
    isNamedAtom_class ((hs.parentName n hn).resolve_left he)
  static := known_cases ⟨isPlainAtom_word (by decide), by decide⟩ fun n hn he =>
    isNamedAtom_lateBound ((hs.className n hn).resolve_left he)
  late n hn hab := isNamedAtom_lateBound ⟨hab, hn.isUncut⟩
  name n hn := isNamedAtom_class (hs.resolve hn.name)
  template a v hv := by simp [ht, Bindings.get?] at hv
  meet as m has hm := by
    have hsub := ha.subset_of_intersection hc (fun a ha => (has a ha).uncut)
      (fun a ha => (has a ha).isAtom) hm
    rcases hsub with rfl | rfl | hsub
    · simpa using isNamedAtom_constant (by decide)
    · simpa using isNamedAtom_constant (by decide)
    · exact fun a ham => has a (hsub ham)

/-- A class name stands for the type of a template, or for what it would stand for without
templates. -/
theorem classType_cases (scope : Scope) (n : String) :
    (∃ a v, scope.templates.get? a = some v ∧ Grammar.classType scope n = v) ∨
      Grammar.classType scope n = Grammar.classType { scope with templates := [] } n := by
  unfold Grammar.classType
  split
  · exact .inr rfl
  · split
    · next v _ hv => exact .inl ⟨n, v, hv, rfl⟩
    · refine .inr ?_
      split
      · next hv => cases hv
      · rfl

theorem NormalMembers.named_atoms {ts : List DocType}
    (hts : ∀ t ∈ ts, h.NormalMembers t.members) :
    ∀ a ∈ ts.flatMap DocType.atoms, a ≠ "" ∧ IsUncut a := by
  intro a ha
  obtain ⟨t, ht, hat⟩ := List.mem_flatMap.mp ha
  obtain ⟨m, hm, ham⟩ := List.mem_flatten.mp hat
  exact ((hts t ht).2 m hm).named a ham

/-- All types that the grammar yields are in normal form. -/
theorem Absolute.invariant_normal (ha : h.Absolute) (hc : h.Acyclic) {scope : Scope}
    (hs : scope.IsNamed) (hv : ∀ a v, scope.templates.get? a = some v → h.IsNormal v)
    (wide : Bool) : Grammar.Invariant ⟨scope, h, wide⟩ h.NormalMembers h.IsNormal := by
  have hbare : ({ scope with templates := [] } : Scope).IsNamed :=
    ⟨hs.nameSpace, hs.imports, hs.className, hs.parentName⟩
  have hnamed := (ha.atomInvariant_named hc hbare rfl wide).invariant ha
  exact {
    constant w hw := normalMembers_of_membersOf (hnamed.constant w hw)
    self := normalMembers_of_membersOf hnamed.self
    parent := normalMembers_of_membersOf hnamed.parent
    static he := normalMembers_of_membersOf (hnamed.static he)
    lateClass n hn he := normalMembers_of_membersOf (hnamed.lateClass n hn he)
    late n hn hab := normalMembers_of_membersOf (hnamed.late n hn hab)
    name n hn := by
      rcases classType_cases scope n with ⟨a, v, hav, he⟩ | he
      · exact he ▸ (hv a v hav).normalMembers
      · exact he ▸ normalMembers_of_membersOf (hnamed.name n hn)
    unknown := normalMembers_of_membersOf hnamed.unknown
    whole t ht := ht.normalMembers
    append ms ns hm hn := by
      refine ⟨by simp [hm.1], fun m hmem => ?_⟩
      exact (List.mem_append.mp hmem).elim (hm.2 m) (hn.2 m)
    meet ts _ hts := by
      have hatoms := NormalMembers.named_atoms fun t ht => (hts t ht).1
      have hone : ∀ m, h.NormalMember m → h.NormalMembers [m] := fun m hm =>
        ⟨by simp, by simpa using hm⟩
      refine ⟨fun a he => ?_, fun m hm => hone m (ha.normalMember_intersection hc hatoms hm)⟩
      obtain ⟨hne, hu⟩ := hatoms a (by simp [he])
      exact hone [a] (normalMember_singleton hne hu)
    union ms hms := isNormal_union hms }

theorem Absolute.isNormal_type (ha : h.Absolute) (hc : h.Acyclic) {scope : Scope}
    (hs : scope.IsNamed) (hv : ∀ a v, scope.templates.get? a = some v → h.IsNormal v) {wide : Bool}
    {s s' : Reader} (hl : ∀ l ∈ s.rest, l.IsProper)
    (hg : Grammar.type ⟨scope, h, wide⟩ s = .ok (t, s')) : h.IsNormal t :=
  (Grammar.yields_type (ha.invariant_normal hc hs hv wide) s t s' hl hg).1

/-- Whatever is read from a tag is in normal form, and so is told by its text, if the names that are
known are absolute and the templates stand for types in normal form. -/
theorem Absolute.isNormal_read (ha : h.Absolute) (hc : h.Acyclic) {scope : Scope}
    (hs : scope.IsNamed) (hv : ∀ a v, scope.templates.get? a = some v → h.IsNormal v)
    (wide : Bool) (text : String) :
    (∀ e t, (TypedTag.read ⟨scope, h, wide⟩ text e).type = some t →
      h.IsNormal t ∧ DocType.ofText t.text = t) ∧
    ∀ t, (TypedTag.readTemplate ⟨scope, h, wide⟩ text).type = some t →
      h.IsNormal t ∧ DocType.ofText t.text = t := by
  constructor
  · intro e t hr
    obtain ⟨u, s, hg, rfl⟩ := TypedTag.exists_of_read hr
    have hu := ha.isNormal_type hc hs hv (fun l hl => isProper_of_mem_lex hl) hg
    split
    · have hnull : h.NormalMember ["null"] := normalMember_constant (by decide)
      have hmembers : h.NormalMembers (u.members ++ [["null"]]) :=
        ⟨by simp, List.forall_mem_append.mpr ⟨hu.members, by simpa using hnull⟩⟩
      have hunion := isNormal_union hmembers
      exact ⟨hunion, hunion.ofText_text⟩
    · exact ⟨hu, hu.ofText_text⟩
  · intro t hr
    rcases TypedTag.exists_of_readTemplate hr with rfl | ⟨s, s', hsub, hg⟩
    · have hmixed : h.NormalMember ["mixed"] := normalMember_constant (by decide)
      exact ⟨hmixed.isNormal, hmixed.isNormal.ofText_text⟩
    · have ht := ha.isNormal_type hc hs hv (fun l hl => isProper_of_mem_lex (hsub hl)) hg
      exact ⟨ht, ht.ofText_text⟩

end Hierarchy

/-- A template that stands for an intersection is intersected with a class and its parent, and a
default value adds `null`. -/
theorem isNormal_read_sample :
    sampleHierarchy.Absolute ∧ sampleHierarchy.Acyclic ∧ sampleScope.IsNamed ∧
      (∀ a v, sampleScope.templates.get? a = some v → sampleHierarchy.IsNormal v) ∧
      (TypedTag.read ⟨sampleScope, sampleHierarchy, false⟩ "(T&Base&Foo)|Bar[] $x = null"
        .default).type = some (.ofText "\\App\\Foo&\\Iterator&\\Lib\\Bar|array|null") ∧
      sampleHierarchy.IsNormal (.ofText "\\App\\Foo&\\Iterator&\\Lib\\Bar|array|null") := by
  have ha : sampleHierarchy.Absolute := by
    unfold Hierarchy.Absolute IsAbsolute
    decide +kernel
  have hc : sampleHierarchy.Acyclic :=
    Hierarchy.acyclic_of_rank (fun a => if a = "\\App\\Foo" then 4 else 0) (by decide +kernel)
      (by decide +kernel)
  have hs := sampleScope_isAscii.isNamed
  have hv : ∀ a v, sampleScope.templates.get? a = some v → sampleHierarchy.IsNormal v := by
    intro a v hav
    obtain ⟨l₁, l₂, hl, -⟩ := List.lookup_eq_some_iff.mp hav
    have hm : (a, v) ∈ sampleScope.templates := by simp [hl]
    obtain ⟨-, rfl⟩ : a = "T" ∧ v = .ofText "\\Iterator&\\Lib\\Bar" := by
      simpa [sampleScope] using hm
    have hmember : sampleHierarchy.NormalMember ["\\Iterator", "\\Lib\\Bar"] :=
      ⟨by decide, by decide +kernel, by unfold IsUncut; decide +kernel, by decide +kernel,
        by decide +kernel⟩
    have hsplit : DocType.ofText "\\Iterator&\\Lib\\Bar" = ⟨[["\\Iterator", "\\Lib\\Bar"]]⟩ := by
      decide +kernel
    exact hsplit ▸ hmember.isNormal
  have hr : (TypedTag.read ⟨sampleScope, sampleHierarchy, false⟩ "(T&Base&Foo)|Bar[] $x = null"
      .default).type = some (.ofText "\\App\\Foo&\\Iterator&\\Lib\\Bar|array|null") := by
    decide +kernel
  exact ⟨ha, hc, hs, hv, hr, ((ha.isNormal_read hc hs hv false _).1 .default _ hr).1⟩

end PhpDoc
