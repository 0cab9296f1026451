import PhpDoc.Proofs.Rereading
/-!
Canonical types are fixed points of reading. All atoms that are read stand for themselves, so the
text of a type is read as the type, which is in normal form already.
-/
namespace PhpDoc
open Hierarchy

/-- A type whose text is read as that type, without a remainder. -/
def IsFixedPoint (scope : Scope) (h : Hierarchy) (t : DocType) : Prop :=
  ∀ wide : Bool, (TypedTag.read ⟨scope, h, wide⟩ t.text).type = some t ∧
    (TypedTag.read ⟨scope, h, wide⟩ t.text).remainder = ""

variable {h : Hierarchy} {scope : Scope} {c : Context} {m n : Member} {ms : List Member}
  {mss : List (List Member)} {f : Member → Option Member} {as : List String} {t u v : DocType}

theorem isSettled_word (hw : ∀ a ∈ m, a ∈ ["never", "mixed"]) : ∀ a ∈ m, IsSettled scope a := by
  have hall : ∀ w ∈ ["never", "mixed"], w ∈ Grammar.constants := by decide
  exact fun a ha => Scope.isSettled_constant (hall a (hw a ha))

/-- Intersections of atoms that stand for themselves have such atoms. -/
theorem Hierarchy.Absolute.isSettled_intersection (ha : h.Absolute) (hc : h.Acyclic)
    (has : ∀ a ∈ as, IsSettled scope a) (hi : h.intersection as = some m) :
    ∀ a ∈ m, IsSettled scope a := by
  have hplain : ∀ a ∈ as, IsPlainAtom a := fun a ham => (has a ham).canonical.isPlainAtom
  obtain rfl | rfl | hsub := ha.subset_of_intersection hc (fun a ham => (hplain a ham).uncut)
    (fun a ham => (hplain a ham).isAtom) hi
  · exact isSettled_word (by simp)
  · exact isSettled_word (by simp)
  · exact fun a ham => has a (hsub ham)

namespace Grammar

theorem mem_flatten_of_mapM (hm : ms.mapM (fun m => (f m).map fun n => [n]) = some mss) :
    (ms ≠ [] → mss.flatten ≠ []) ∧ ∀ n ∈ mss.flatten, ∃ m ∈ ms, f m = some n := by
  induction ms generalizing mss with
  | nil =>
    obtain rfl : [] = mss := Option.some.inj hm
    simp
  | cons m ms ih =>
    rw [List.mapM_cons] at hm
    obtain ⟨ns, hn, hm⟩ := Option.bind_eq_some_iff.mp hm
    obtain ⟨nss, hns, hm⟩ := Option.bind_eq_some_iff.mp hm
    obtain ⟨n, hfn, rfl⟩ := Option.map_eq_some_iff.mp hn
    obtain rfl : [n] :: nss = mss := Option.some.inj hm
    refine ⟨by simp, fun k hk => ?_⟩
    obtain rfl | hk : k = n ∨ k ∈ nss.flatten := by simpa using hk
    · exact ⟨m, List.mem_cons_self, hfn⟩
    · obtain ⟨l, hl, hfl⟩ := (ih hns).2 k hk
      exact ⟨l, List.mem_cons_of_mem _ hl, hfl⟩

theorem mapM_fixed (hf : ∀ m ∈ ms, f m = some m) :
    ms.mapM (fun m => (f m).map fun n => [n]) = some (ms.map fun n => [n]) := by
  induction ms with
  | nil => rfl
  | cons m ms ih =>
    have hrest := ih fun n hn => hf n (List.mem_cons_of_mem _ hn)
    rw [List.mapM_cons, hf m List.mem_cons_self, hrest]
    rfl

/-- What a member stands for is in normal form, of atoms that stand for themselves. -/
theorem membersOf_settleMember (ha : c.hierarchy.Absolute) (hc : c.hierarchy.Acyclic)
    (hs : c.scope.IsAscii) (hm : ∀ a ∈ m, IsCanonicalAtom a) (hn : settleMember c m = some n) :
    c.hierarchy.IsMember n ∧ ∀ a ∈ n, IsSettled c.scope a := by
  have hset : ∀ a ∈ m.map c.scope.settle, IsSettled c.scope a := by
    intro a hma
    obtain ⟨b, hb, rfl⟩ := List.mem_map.mp hma
    exact hs.isSettled (hm b hb)
  have hplain : ∀ a ∈ m.map c.scope.settle, IsPlainAtom a := fun a hma =>
    (hset a hma).canonical.isPlainAtom
  unfold settleMember at hn
  split at hn
  · next a he =>
    obtain rfl : [a] = n := Option.some.inj hn
    rw [he] at hset hplain
    obtain ⟨hu, hf⟩ := hplain a List.mem_cons_self
    exact ⟨isMember_singleton hu hf, hset⟩
  · exact ⟨isMember_of_plain hplain hn, ha.isSettled_intersection hc hset hn⟩

/-- What a type stands for is in normal form, of atoms that stand for themselves. -/
theorem canonicalOf_settleType (ha : c.hierarchy.Absolute) (hc : c.hierarchy.Acyclic)
    (hs : c.scope.IsAscii) (ht : t.IsSpellable) (hu : settleType c t = some u) :
    c.hierarchy.CanonicalOf (IsSettled c.scope) u := by
  obtain ⟨mss, hm, rfl⟩ := Option.map_eq_some_iff.mp hu
  obtain ⟨hne, hmem⟩ := mem_flatten_of_mapM hm
  refine ha.canonicalOf_union ⟨hne ht.nonempty, fun n hn => ?_⟩
  obtain ⟨m, hm, hmn⟩ := hmem n hn
  exact membersOf_settleMember ha hc hs (ht.atoms m hm) hmn

theorem settleMember_eq (ha : c.hierarchy.Absolute) (hm : c.hierarchy.IsMember m)
    (hs : ∀ a ∈ m, IsSettled c.scope a) : settleMember c m = some m := by
  have hmap : m.map c.scope.settle = m := by
    refine (List.map_congr_left fun a hma => ?_).trans (List.map_id m)
    exact (hs a hma).settle
  rw [settleMember, hmap]
  split
  · rfl
  · next hlen => exact ha.intersection_eq hm hlen

/-- A type in normal form stands for itself if its atoms do. -/
theorem settleType_eq (ha : c.hierarchy.Absolute)
    (ht : c.hierarchy.CanonicalOf (IsSettled c.scope) t) : settleType c t = some t := by
  have hm := mapM_fixed fun m hm => settleMember_eq ha (ht.members m hm) (ht.atoms m hm)
  rw [settleType, hm, Option.map_some, flatten_singletons, ht.toCanonical.union_members]

end Grammar

theorem Hierarchy.CanonicalOf.isSpellable (ht : h.CanonicalOf (IsSettled scope) t) :
    t.IsSpellable where
  nonempty := ht.nonempty
  members m hm := (ht.members m hm).nonempty
  atoms m hm a ha := (ht.atoms m hm a ha).canonical

/-- A type in normal form is a fixed point if its atoms stand for themselves. -/
theorem Hierarchy.Absolute.isFixedPoint (ha : h.Absolute) (hs : scope.IsAscii)
    (ht : h.CanonicalOf (IsSettled scope) t) : IsFixedPoint scope h t := by
  intro wide
  obtain ⟨htype, hremainder⟩ := TypedTag.read_text (c := ⟨scope, h, wide⟩) hs ht.isSpellable
  rw [Grammar.settleType_eq (c := ⟨scope, h, wide⟩) ha ht] at htype
  exact ⟨htype, hremainder t htype⟩

/-- Fixed points of canonical atoms are in normal form, of atoms that stand for themselves. -/
theorem IsFixedPoint.canonicalOf (hv : IsFixedPoint scope h v) (ha : h.Absolute) (hc : h.Acyclic)
    (hs : scope.IsAscii) (hsp : v.IsSpellable) : h.CanonicalOf (IsSettled scope) v := by
  have htype := (TypedTag.read_text (c := ⟨scope, h, false⟩) hs hsp).1
  rw [(hv false).1] at htype
  exact Grammar.canonicalOf_settleType (c := ⟨scope, h, false⟩) ha hc hs hsp htype.symm

/-- All atoms that are read stand for themselves. -/
theorem Grammar.atomInvariant_settled (ha : c.hierarchy.Absolute) (hc : c.hierarchy.Acyclic)
    (hs : c.scope.IsAscii)
    (hv : ∀ a v, c.scope.templates.get? a = some v →
      v.IsSpellable ∧ IsFixedPoint c.scope c.hierarchy v) :
    AtomInvariant c (IsSettled c.scope) where
  plain a hset := hset.canonical.isPlainAtom
  constant w hw := Scope.isSettled_constant hw
  self := by
    rw [← Scope.settle_self]
    exact hs.isSettled (.open (by decide))
  parent := by
    rw [← Scope.settle_parent]
    exact hs.isSettled (.open (by decide))
  static := by
    rw [← Scope.settle_static]
    exact hs.isSettled (.open (by decide))
  late n hn hb := Scope.isSettled_lateBound hn hb
  name n hn := Scope.isSettled_name (hs.resolve hn)
  template a v hav := (hv a v hav).2.canonicalOf ha hc hs (hv a v hav).1
  meet as m has hm := ha.isSettled_intersection hc has hm

/-- Canonical types are fixed points of reading, whichever type stands for what is unknown. -/
theorem Hierarchy.Absolute.isFixedPoint_of_read (ha : h.Absolute) (hc : h.Acyclic)
    (hs : scope.IsAscii)
    (hv : ∀ a v, scope.templates.get? a = some v → v.IsSpellable ∧ IsFixedPoint scope h v)
    (wide : Bool) (text : String) (e : Extent)
    (hr : (TypedTag.read ⟨scope, h, wide⟩ text e).type = some t) : IsFixedPoint scope h t := by
  have hP := Grammar.atomInvariant_settled (c := ⟨scope, h, wide⟩) ha hc hs hv
  exact ha.isFixedPoint hs (ha.canonicalOf_read hP hr)

/-- The known classes have more supertypes than their parents. -/
theorem library_falls : ∀ r ∈ Library.rows, ∀ p ∈ r.2,
    (superTypes [] p).length < (superTypes [] r.1).length := by
  decide +kernel

/-- A hierarchy has no cycle if a rank that the known classes do not have falls from each class to
its parents. -/
theorem Hierarchy.acyclic_of_rank (rank : String → Nat)
    (hlib : ∀ r ∈ Library.rows, rank r.1 = 0 ∧ ∀ p ∈ r.2, rank p = 0)
    (hr : ∀ r ∈ h, ∀ p ∈ r.2.parents,
      rank p + (superTypes [] p).length < rank r.1 + (superTypes [] r.1).length) :
    h.Acyclic := by
  have hstep : ∀ a b, b ∈ listed h.rows a →
      rank b + (superTypes [] b).length < rank a + (superTypes [] a).length := by
    intro a b hb
    unfold listed at hb
    cases hl : h.rows.lookup a with
    | none => simp [hl] at hb
    | some ps =>
      have hbp : b ∈ ps := by simpa [hl] using hb
      cases List.mem_append.mp (mem_of_lookup hl) with
      | inl hm =>
        obtain ⟨ha, hps⟩ := hlib (a, ps) hm
        rw [hps b hbp, show rank a = 0 from ha, Nat.zero_add, Nat.zero_add]
        exact library_falls (a, ps) hm b hbp
      | inr hm =>
        obtain ⟨r, hmem, he⟩ := List.mem_map.mp hm
        obtain ⟨rfl, rfl⟩ := Prod.mk.inj he
        exact hr r hmem b hbp
  have hdown : ∀ a b, h.Ancestor a b →
      rank b + (superTypes [] b).length < rank a + (superTypes [] a).length := by
    intro a b hab
    induction hab with
    | single hb => exact hstep _ _ hb
    | tail _ hb ih => exact Nat.lt_trans (hstep _ _ hb) ih
  exact fun a b hab hba => absurd (hdown a b hab) (Nat.lt_asymm (hdown b a hba))

def sampleHierarchy : Hierarchy :=
  [("\\App\\Foo", ⟨some "\\App\\Base", ["\\Countable"]⟩)]

def sampleScope : Scope where
  nameSpace := "\\App"
  imports := [("Bar", "\\Lib\\Bar")]
  templates := [("T", .ofText "\\Iterator&\\Lib\\Bar")]
  className := some "\\App\\Foo"

theorem sampleScope_isAscii : sampleScope.IsAscii := by
  have happ : IsAsciiName "\\App" := ⟨[['A', 'p', 'p']], by decide, by decide, by decide⟩
  have hbar : IsAsciiName "\\Lib\\Bar" :=
    ⟨[['L', 'i', 'b'], ['B', 'a', 'r']], by decide, by decide, by decide⟩
  have hfoo : IsAsciiName "\\App\\Foo" :=
    ⟨[['A', 'p', 'p'], ['F', 'o', 'o']], by decide, by decide, by decide⟩
  refine ⟨Or.inr happ, fun a n hn => ?_, fun n hn => ?_, fun n hn => ?_⟩
  · have hm : (a, n) ∈ sampleScope.imports := mem_of_lookup hn
    obtain ⟨rfl, rfl⟩ : a = "Bar" ∧ n = "\\Lib\\Bar" := by simpa [sampleScope] using hm
    exact hbar
  · exact Or.inr (Option.some.inj hn ▸ hfoo)
  · cases hn

theorem sampleScope_templates (a : String) (v : DocType)
    (hv : sampleScope.templates.get? a = some v) :
    v.IsSpellable ∧ IsFixedPoint sampleScope sampleHierarchy v := by
  have hiterator : IsAsciiName "\\Iterator" :=
    ⟨[['I', 't', 'e', 'r', 'a', 't', 'o', 'r']], by decide, by decide, by decide⟩
  have hbar : IsAsciiName "\\Lib\\Bar" :=
    ⟨[['L', 'i', 'b'], ['B', 'a', 'r']], by decide, by decide, by decide⟩
  have hm : (a, v) ∈ sampleScope.templates := mem_of_lookup hv
  obtain ⟨rfl, rfl⟩ : a = "T" ∧ v = .ofText "\\Iterator&\\Lib\\Bar" := by
    simpa [sampleScope] using hm
  have hmembers : (DocType.ofText "\\Iterator&\\Lib\\Bar").members =
      [["\\Iterator", "\\Lib\\Bar"]] := by
    decide +kernel
  refine ⟨⟨by simp [hmembers], by simp [hmembers], ?_⟩, by unfold IsFixedPoint; decide +kernel⟩
  simpa [hmembers] using ⟨IsCanonicalAtom.name hiterator, IsCanonicalAtom.name hbar⟩

theorem isFixedPoint_sample :
    sampleHierarchy.Absolute ∧ sampleHierarchy.Acyclic ∧ sampleScope.IsAscii ∧
      (TypedTag.read ⟨sampleScope, sampleHierarchy, false⟩ "?(T|static|Bar[]|(Bar&Base))").type =
        some (.ofText "\\App\\Base&\\Lib\\Bar|\\Iterator&\\Lib\\Bar|array|null|static(\\App\\Foo)") ∧
      IsFixedPoint sampleScope sampleHierarchy (.ofText
        "\\App\\Base&\\Lib\\Bar|\\Iterator&\\Lib\\Bar|array|null|static(\\App\\Foo)") := by
  have ha : sampleHierarchy.Absolute := by
    unfold Hierarchy.Absolute IsAbsolute
    decide +kernel
  have hc : sampleHierarchy.Acyclic :=
    acyclic_of_rank (fun a => if a = "\\App\\Foo" then 4 else 0) (by decide +kernel)
      (by decide +kernel)
  have hr : (TypedTag.read ⟨sampleScope, sampleHierarchy, false⟩
      "?(T|static|Bar[]|(Bar&Base))").type = some (.ofText
        "\\App\\Base&\\Lib\\Bar|\\Iterator&\\Lib\\Bar|array|null|static(\\App\\Foo)") := by
    decide +kernel
  exact ⟨ha, hc, sampleScope_isAscii, hr,
    ha.isFixedPoint_of_read hc sampleScope_isAscii sampleScope_templates false _ _ hr⟩

/-- Outside of ASCII there are classes whose names are no types, and the text of a template that
stands for atoms with separators may be read in its own way. -/
theorem not_isFixedPoint_sample :
    Absolute [] ∧ Acyclic [] ∧
      (IsAbsolute "\\Ünï" ∧ (TypedTag.read ⟨{ nameSpace := "\\Ünï" }, [], false⟩ "Foo").type =
        some (.ofText "\\Ünï\\Foo") ∧
        ¬IsFixedPoint { nameSpace := "\\Ünï" } [] (.ofText "\\Ünï\\Foo")) ∧
      ∃ templates : Bindings DocType,
        (∀ p ∈ templates, IsFixedPoint { templates := templates } [] p.2) ∧
        ∃ t, (TypedTag.read ⟨{ templates := templates }, [], false⟩ "X|Z").type = some t ∧
          ¬IsFixedPoint { templates := templates } [] t := by
  have hc : Acyclic [] := acyclic_of_rank (fun _ => 0) (by simp) (by simp)
  refine ⟨by simp [Hierarchy.Absolute], hc, ⟨by decide, by decide +kernel, ?_⟩, ?_⟩
  · unfold IsFixedPoint
    decide +kernel
  · refine ⟨[("X", .ofText "'|'[]|X|array"), ("Z", .ofText "'!|'[]|Z|array")], ?_,
      .ofText "'|'!|'[]|X|Z|array", by decide +kernel, ?_⟩
    · unfold IsFixedPoint
      decide +kernel
    · unfold IsFixedPoint
      decide +kernel

end PhpDoc
