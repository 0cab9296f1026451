import PhpDoc.Proofs.Bounds
import PhpDoc.Proofs.NormalForms
/-!
Types that are formed again. Whatever the hierarchy, a union that was formed is left as it is when
it is formed again, and so is an intersection. A type that is read is formed again where it stands in
parentheses, which changes it only if a template or a name that the scope knows made it.
-/
namespace PhpDoc

namespace Text
variable {sep : Char} {s p : String}

theorem of_mem_splitOn {cs ds : List Char} (hd : ds ∈ cs.splitOn sep) : sep ∉ ds ∧ ds ⊆ cs := by
  induction cs generalizing ds with
  | nil =>
    obtain rfl : ds = [] := by simpa using hd
    simp
  | cons c cs ih =>
    rw [List.splitOn_cons_eq_if_modifyHead] at hd
    split at hd
    · rcases List.mem_cons.mp hd with rfl | hd
      · simp
      · exact ⟨(ih hd).1, List.subset_cons_of_subset c (ih hd).2⟩
    · next hc =>
      obtain ⟨es, ess, he⟩ := List.exists_cons_of_ne_nil (List.splitOn_ne_nil sep cs)
      have hc : c ≠ sep := by simpa using hc
      rw [he] at ih hd
      rcases List.mem_cons.mp hd with rfl | hd
      · obtain ⟨hsep, hsub⟩ := ih List.mem_cons_self
        exact ⟨by simpa using ⟨hc.symm, hsep⟩, List.cons_subset_cons c hsub⟩
      · obtain ⟨hsep, hsub⟩ := ih (List.mem_cons_of_mem es hd)
        exact ⟨hsep, List.subset_cons_of_subset c hsub⟩

/-- A piece has characters of the text, but no separator. -/
theorem of_mem_pieces (hp : p ∈ pieces sep s) : sep ∉ p.toList ∧ p.toList ⊆ s.toList := by
  obtain ⟨ds, hd, rfl⟩ := List.mem_map.mp hp
  rw [String.toList_ofList]
  exact of_mem_splitOn hd

theorem pieces_ne_nil (sep : Char) (s : String) : pieces sep s ≠ [] := by
  simp [pieces]

end Text

namespace DocType
variable {s : String} {m : Member}

theorem ofText_members_ne_nil (s : String) : (ofText s).members ≠ [] := by
  simpa [ofText] using Text.pieces_ne_nil '|' s

/-- A text is cut into members of which each has a single reading. -/
theorem isPlain_of_mem_ofText (hm : m ∈ (ofText s).members) : m.IsPlain := by
  obtain ⟨p, hp, rfl⟩ := List.mem_map.mp hm
  refine ⟨Text.pieces_ne_nil '&' p, fun a ha => ?_⟩
  obtain ⟨hamp, hsub⟩ := Text.of_mem_pieces ha
  exact ⟨fun hbar => (Text.of_mem_pieces hp).1 (hsub hbar), hamp⟩

end DocType

namespace Hierarchy
variable {h : Hierarchy} {P : Member → Prop} {as : List String} {m : Member}
  {ms rest kept : List Member} {t : DocType}

structure IsUnited (h : Hierarchy) (P : Member → Prop) (t : DocType) : Prop where
  nonempty : t.members ≠ []
  members : ∀ m ∈ t.members, P m
  union_members : h.union t.members = t

/-- A union is left as it is when it is formed again. -/
theorem isUnited_union (hP : ∀ m, P m → m.IsPlain) (hms : ∀ m ∈ ms, P m) (hne : ms ≠ []) :
    h.IsUnited P (h.union ms) := by
  obtain ⟨hs, hsome, hsub⟩ := separate_union (h := h) (fun m hm => hP m (hms m hm)) hne
  exact ⟨hsome, fun m hm => hms m (hsub hm), hs.union_eq⟩

theorem isPlain_intersection (hu : ∀ a ∈ as, IsUncut a) (hi : h.intersection as = some m) :
    m.IsPlain := by
  have hword : ∀ w ∈ ["never", "mixed", ""], IsUncut w := by
    unfold IsUncut
    decide
  obtain rfl | rfl | ⟨a, ha, rfl⟩ | ⟨bs, n, -, hsub, hn, rfl⟩ := intersection_cases hu hi
  · exact Member.isPlain_singleton (hword _ (by simp))
  · exact Member.isPlain_singleton (hword _ (by simp))
  · exact Member.isPlain_singleton (hu a ha)
  · split
    · exact Member.isPlain_singleton (hword _ (by simp))
    · next hne => exact ⟨hne, fun b hb => hu b (hsub ((hn.mem_iff b).mp hb).1)⟩

/-- An intersection is left as it is when it is formed again. -/
theorem intersection_intersection (hu : ∀ a ∈ as, IsUncut a) (hi : h.intersection as = some m) :
    h.intersection m = some m := by
  obtain rfl | rfl | ⟨a, -, rfl⟩ | ⟨bs, n, -, hsub, hn, rfl⟩ := intersection_cases hu hi
  · exact intersection_singleton h _
  · exact intersection_singleton h _
  · exact intersection_singleton h a
  · split
    · exact intersection_singleton h ""
    · next hne =>
      exact hn.intersection_self (fun b hb => hu b (hsub ((hn.mem_iff b).mp hb).1)) hne

/-- What a type stands for in parentheses: a single member is intersected again. -/
def regroup (h : Hierarchy) (t : DocType) : Option DocType :=
  match t.members with
  | [m] => (h.intersection m).map fun n => ⟨[n]⟩
  | _ => some t

theorem regroup_eq (ht : ∀ m ∈ t.members, h.intersection m = some m) : h.regroup t = some t := by
  unfold regroup
  split
  · next m he =>
    rw [ht m (by simp [he]), Option.map_some, ← he]
  · rfl

end Hierarchy

def Scope.IsTextual (scope : Scope) : Prop :=
  ∀ a v, scope.templates.get? a = some v → ∃ s, v = DocType.ofText s

/-- The names of a scope are absolute, and its templates stand for intersections that have been
formed. -/
structure Scope.IsTidy (scope : Scope) (h : Hierarchy) : Prop extends scope.IsNamed where
  template : ∀ a v, scope.templates.get? a = some v → ∀ m ∈ v.members, h.intersection m = some m

theorem isUncut_self : IsUncut "self" := by
  unfold IsUncut
  decide

theorem isUncut_parent : IsUncut "parent" := by
  unfold IsUncut
  decide

namespace Grammar
variable {c : Context} {P : Member → Prop} {as : List String} {m : Member} {t : DocType}

structure MemberInvariant (c : Context) (P : Member → Prop) : Prop where
  plain : ∀ m, P m → m.IsPlain
  atom : ∀ a, IsUncut a → P [a]
  meet : ∀ as m, (∀ a ∈ as, IsUncut a) → c.hierarchy.intersection as = some m → P m
  self : ∀ m ∈ (scopeType c.scope.className "self").members, P m
  parent : ∀ m ∈ (scopeType c.scope.parentName "parent").members, P m
  lateClass : ∀ n, c.scope.className = some n → n ≠ "" →
    ∀ m ∈ (DocType.ofText (lateBound n)).members, P m
  name : ∀ n, IsClassText n → ∀ m ∈ (classType c.scope n).members, P m

/-- A word for a class stands for a type that a text tells. -/
theorem exists_scopeType_eq (o : Option String) {w : String} (hw : IsUncut w) :
    ∃ s, scopeType o w = .ofText s := by
  unfold scopeType
  split
  · split
    · exact ⟨w, (DocType.ofText_uncut hw).symm⟩
    · exact ⟨_, rfl⟩
  · exact ⟨w, (DocType.ofText_uncut hw).symm⟩

/-- A class name stands for the type of a template, or for what it resolves to. -/
theorem classType_template_or (scope : Scope) (n : String) :
    (∃ v, scope.templates.get? n = some v ∧ classType scope n = v) ∨
      classType scope n = .ofText (scope.resolve n) := by
  unfold classType
  split
  · next ha => exact .inr (by rw [Scope.resolve, if_pos ha])
  · split
    · next v _ hv => exact .inl ⟨v, hv, rfl⟩
    · exact .inr rfl

/-- A class name stands for a type that a text tells. -/
theorem exists_classType_eq (hs : c.scope.IsTextual) (n : String) :
    ∃ s, classType c.scope n = .ofText s := by
  obtain ⟨v, hv, he⟩ | he := classType_template_or c.scope n
  · exact he ▸ hs n v hv
  · exact ⟨_, he⟩

theorem isUncut_constant {w : String} (hw : w ∈ constants) : IsUncut w :=
  (isPlainAtom_constant hw).uncut

/-- The types that are read are unions of members with the property. -/
theorem MemberInvariant.invariant (hP : MemberInvariant c P) (hs : c.scope.IsTextual) :
    Invariant c (fun ms => ms ≠ [] ∧ ∀ m ∈ ms, P m) (c.hierarchy.IsUnited P) := by
  have hatom : ∀ a, IsUncut a → [[a]] ≠ [] ∧ ∀ m ∈ [[a]], P m := fun a ha =>
    ⟨by simp, by simpa using hP.atom a ha⟩
  have htext : ∀ t : DocType, (∃ s, t = .ofText s) → (∀ m ∈ t.members, P m) →
      t.members ≠ [] ∧ ∀ m ∈ t.members, P m := by
    rintro _ ⟨s, rfl⟩ hm
    exact ⟨DocType.ofText_members_ne_nil s, hm⟩
  exact {
    constant w hw := hatom w (isUncut_constant hw)
    self := htext _ (exists_scopeType_eq _ isUncut_self) hP.self
    parent := htext _ (exists_scopeType_eq _ isUncut_parent) hP.parent
    static _ := hatom "static" (by unfold IsUncut; decide)
    lateClass n hn he := htext _ ⟨_, rfl⟩ (hP.lateClass n hn he)
    late n hn _ := by
      rw [DocType.ofText_uncut (isUncut_lateBound hn.isUncut)]
      exact hatom _ (isUncut_lateBound hn.isUncut)
    name n hn := htext _ (exists_classType_eq hs n) (hP.name n hn)
    unknown := by
      unfold Context.unknown
      split
      · exact hatom "mixed" (isUncut_constant (by decide))
      · exact hatom "never" (isUncut_constant (by decide))
    whole t ht := ⟨ht.nonempty, ht.members⟩
    append ms ns hm hn := by
      refine ⟨by simp [hm.1], fun m hmem => ?_⟩
      exact (List.mem_append.mp hmem).elim (hm.2 m) (hn.2 m)
    meet ts _ hts := by
      have huncut : ∀ a ∈ ts.flatMap DocType.atoms, IsUncut a := by
        intro a ha
        obtain ⟨t, ht, hat⟩ := List.mem_flatMap.mp ha
        obtain ⟨m, hm, ham⟩ := List.mem_flatten.mp hat
        exact (hP.plain m ((hts t ht).1.2 m hm)).uncut a ham
      refine ⟨fun a he => hatom a (huncut a (by simp [he])), fun m hm => ⟨by simp, ?_⟩⟩
      simpa using hP.meet _ m huncut hm
    union ms hms := Hierarchy.isUnited_union hP.plain hms.2 hms.1 }

/-- Members have a single reading if the templates stand for types that texts tell. -/
theorem memberInvariant_plain (hs : c.scope.IsTextual) : MemberInvariant c Member.IsPlain := by
  have htext : ∀ t : DocType, (∃ s, t = .ofText s) → ∀ m ∈ t.members, m.IsPlain := by
    rintro _ ⟨s, rfl⟩ m hm
    exact DocType.isPlain_of_mem_ofText hm
  exact {
    plain _ hm := hm
    atom _ hu := Member.isPlain_singleton hu
    meet _ _ hu hi := Hierarchy.isPlain_intersection hu hi
    self := htext _ (exists_scopeType_eq _ isUncut_self)
    parent := htext _ (exists_scopeType_eq _ isUncut_parent)
    lateClass _ _ _ := htext _ ⟨_, rfl⟩
    name n _ := htext _ (exists_classType_eq hs n) }

/-- Members are intersections that have been formed if the scope is tidy. -/
theorem memberInvariant_tidy (hs : c.scope.IsTextual) (ht : c.scope.IsTidy c.hierarchy) :
    MemberInvariant c fun m => m.IsPlain ∧ c.hierarchy.intersection m = some m := by
  have hplain := memberInvariant_plain hs
  have hatom : ∀ a, IsUncut a → ∀ m ∈ (DocType.atom a).members,
      m.IsPlain ∧ c.hierarchy.intersection m = some m := by
    intro a ha m hm
    obtain rfl : m = [a] := by simpa [DocType.atom] using hm
    exact ⟨Member.isPlain_singleton ha, Hierarchy.intersection_singleton _ a⟩
  have hknown : ∀ (o : Option String) (w : String), IsUncut w →
      (∀ n, o = some n → n = "" ∨ IsClassName n) → ∀ m ∈ (scopeType o w).members,
        m.IsPlain ∧ c.hierarchy.intersection m = some m := by
    intro o w hw hn
    have hu : IsUncut (known o w id) := known_cases hw fun n hon he =>
      ((hn n hon).resolve_left he).uncut
    exact scopeType_eq hu ▸ hatom _ hu
  exact {
    plain _ hm := hm.1
    atom a hu := hatom a hu [a] (by simp [DocType.atom])
    meet _ _ hu hi :=
      ⟨Hierarchy.isPlain_intersection hu hi, Hierarchy.intersection_intersection hu hi⟩
    self := hknown _ _ isUncut_self ht.className
    parent := hknown _ _ isUncut_parent ht.parentName
    lateClass n hn he := by
      have hu := isUncut_lateBound ((ht.className n hn).resolve_left he).uncut
      exact DocType.ofText_uncut hu ▸ hatom _ hu
    name n hn := by
      have hu := (ht.resolve hn.name).uncut
      obtain ⟨v, hv, he⟩ | he := classType_template_or c.scope n
      · exact fun m hm => ⟨hplain.name n hn m hm, ht.template n v hv m (he ▸ hm)⟩
      · rw [he, DocType.ofText_uncut hu]
        exact hatom _ hu }

variable {s s' : Reader}

/-- Whatever is read is the union of its members. -/
theorem isUnited_of_type (hs : c.scope.IsTextual) (hl : ∀ l ∈ s.rest, l.IsProper)
    (h : type c s = .ok (t, s')) : c.hierarchy.IsUnited Member.IsPlain t :=
  (yields_type ((memberInvariant_plain hs).invariant hs) s t s' hl h).1

/-- Whatever is read in a tidy scope is left as it is in parentheses. -/
theorem regroup_of_type (hs : c.scope.IsTextual) (ht : c.scope.IsTidy c.hierarchy)
    (hl : ∀ l ∈ s.rest, l.IsProper) (h : type c s = .ok (t, s')) :
    c.hierarchy.regroup t = some t := by
  have hunited := (yields_type ((memberInvariant_tidy hs ht).invariant hs) s t s' hl h).1
  exact Hierarchy.regroup_eq fun m hm => (hunited.members m hm).2

end Grammar

end PhpDoc
