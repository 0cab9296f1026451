import PhpDoc.Proofs.Outputs
/-!
The comparison of types is transitive up to one gap. A union lists `array` and `\Traversable` and so
implies `iterable`; a wider union may have `object` in the place of `\Traversable` and then implies
nothing.
-/
namespace PhpDoc
namespace Hierarchy
variable {h : Hierarchy} {x y : String} {l : List String} {m w : Member} {ms : List Member}
  {a b c : DocType}

theorem fits_iff : h.fits a b = true ↔
    a = .mixed ∨ b = .never ∨ ∀ m ∈ b.members, ∃ w ∈ widen a.members, w ⊆ h.closure m := by
  simp only [fits, Bool.or_eq_true, beq_iff_eq, List.all_eq_true, covers_iff, or_assoc]

theorem IsMember.eq_of_subset_singleton (hm : h.IsMember m) (hsub : m ⊆ [x]) : m = [x] := by
  refine hm.eq_of_mem_iff (List.pairwise_singleton _ _) fun y => ⟨fun hy => hsub hy, fun hy => ?_⟩
  obtain ⟨z, hz⟩ := List.exists_mem_of_ne_nil m hm.nonempty
  rw [List.mem_singleton.mp hy, ← List.mem_singleton.mp (hsub hz)]
  exact hz

theorem IsMember.eq_of_subset_pair (hm : h.IsMember m) (hlt : x < y) (hsub : m ⊆ [x, y]) :
    m = [x] ∨ m = [y] ∨ m = [x, y] := by
  by_cases hx : x ∈ m
  · by_cases hy : y ∈ m
    · refine Or.inr (Or.inr (hm.eq_of_mem_iff (by simpa using hlt) fun z => ⟨fun hz => hsub hz, ?_⟩))
      intro hz
      rcases List.mem_cons.mp hz with rfl | hz
      · exact hx
      · exact List.mem_singleton.mp hz ▸ hy
    · refine Or.inl (hm.eq_of_subset_singleton fun z hz => ?_)
      have hzy : z ≠ y := fun he => hy (he ▸ hz)
      simpa [hzy] using hsub hz
  · refine Or.inr (Or.inl (hm.eq_of_subset_singleton fun z hz => ?_))
    have hzx : z ≠ x := fun he => hx (he ▸ hz)
    simpa [hzx] using hsub hz

/-- A member among atoms that are not object-like is one of them. -/
theorem IsMember.exists_eq (hm : h.IsMember m) (hsub : m ⊆ l)
    (hl : ∀ x ∈ l, h.isObjectLike x = false) : ∃ x ∈ l, m = [x] := by
  obtain ⟨x, hx⟩ := List.exists_mem_of_ne_nil m hm.nonempty
  exact ⟨x, hsub hx, hm.eq_singleton hx (hl x (hsub hx))⟩

theorem closure_singleton_word (hs : Text.beginsWith "static(" x = false) (hb : ¬IsAbsolute x) :
    h.closure [x] = x :: (wordParents.lookup x).getD [] := by
  simp [closure, superTypes_word hs hb]

theorem isObjectLike_scalar : ∀ x ∈ ["int", "string", "bool", "float", "array-key", "scalar", "array"],
    h.isObjectLike x = false := by
  intro x hx
  have hopen : ∀ x ∈ ["int", "string", "bool", "float", "array-key", "scalar", "array"],
      Text.beginsWith "static(" x = false ∧ ¬IsAbsolute x := by decide
  rw [isObjectLike_word (hopen x hx).1 (hopen x hx).2]
  revert x
  decide

theorem eq_of_implied (hi : Implied ms w) :
    w = ["array-key"] ∨ w = ["scalar"] ∨ w = ["iterable"] := by
  cases hi with
  | arrayKey => exact Or.inl rfl
  | scalar => exact Or.inr (Or.inl rfl)
  | iterable => exact Or.inr (Or.inr rfl)

theorem int_string_of_implied (hi : Implied ms w) (hw : w = ["array-key"]) :
    ["int"] ∈ ms ∧ ["string"] ∈ ms := by
  cases hi with
  | arrayKey hi hs => exact ⟨hi, hs⟩
  | scalar => simp at hw
  | iterable => simp at hw

theorem traversable_of_implied (hi : Implied ms w) (hw : w = ["iterable"]) :
    ["\\Traversable"] ∈ ms := by
  cases hi with
  | arrayKey => simp at hw
  | scalar => simp at hw
  | iterable ht => exact ht

theorem mem_of_mem_widen (hw : w ∈ widen ms) (hk : w ≠ ["array-key"]) (hs : w ≠ ["scalar"])
    (hi : w ≠ ["iterable"]) : w ∈ ms := by
  rcases mem_widen.mp hw with hw | hw
  · exact hw
  · rcases eq_of_implied hw with he | he | he
    · exact (hk he).elim
    · exact (hs he).elim
    · exact (hi he).elim

theorem isMember_widen (hms : ∀ m ∈ ms, h.IsMember m) (hw : w ∈ widen ms) : h.IsMember w := by
  have hword : ∀ x ∈ ["array-key", "scalar", "iterable"], h.IsMember [x] := by
    intro x hx
    refine isMember_singleton ?_ (.word x ?_)
    · revert x
      unfold IsUncut
      decide
    · revert x
      decide
  rcases mem_widen.mp hw with hw | hw
  · exact hms w hw
  · rcases eq_of_implied hw with rfl | rfl | rfl
    · exact hword _ (by simp)
    · exact hword _ (by simp)
    · exact hword _ (by simp)

theorem listed_traversable (h : Hierarchy) : listed h.rows "\\Traversable" = ["iterable"] := by
  have hl : Library.rows.lookup "\\Traversable" = some ["iterable"] := by decide +kernel
  rw [listed, rows, List.lookup_append, hl]
  rfl

/-- The types of an object that can be traversed. -/
theorem Absolute.mem_closure_traversable (ha : h.Absolute) :
    x ∈ h.closure ["\\Traversable"] ↔ x = "\\Traversable" ∨ x = "object" ∨ x = "iterable" := by
  have hanc : h.Ancestor "\\Traversable" x ↔ x = "iterable" := by
    constructor
    · intro hx
      obtain ⟨p, hp, hx⟩ := Relation.TransGen.head'_iff.mp hx
      obtain rfl : p = "iterable" := by simpa [listed_traversable] using hp
      rcases Relation.ReflTransGen.cases_head hx with he | ⟨q, hq, -⟩
      · exact he.symm
      · exact absurd (ha.of_listed hq).1 (by decide)
    · rintro rfl
      exact .single (by simp [listed_traversable])
  have hsup := ha.mem_superTypes_name (x := x) (b := "\\Traversable") (by decide)
  rw [mem_closure]
  simp only [List.mem_singleton, exists_eq_left, Has, hsup, hanc]
  constructor
  · rintro (he | he | ⟨-, he⟩) <;> simp [he]
  · rintro (he | he | rfl)
    · exact Or.inl he
    · exact Or.inr (Or.inl he)
    · exact Or.inr (Or.inr ⟨by decide, rfl⟩)

section Covered
variable (hms : ∀ m ∈ ms, h.IsMember m)
include hms

/-- A wider union has some type of `int`, and one of `string`. -/
theorem arrayKey_mem_widen (hi : ∃ w ∈ widen ms, w ⊆ h.closure ["int"])
    (hs : ∃ w ∈ widen ms, w ⊆ h.closure ["string"]) :
    ["array-key"] ∈ widen ms ∨ ["scalar"] ∈ widen ms := by
  obtain ⟨w, hw, hsub⟩ := hi
  obtain ⟨v, hv, hsub'⟩ := hs
  have hcw : h.closure ["int"] = ["int", "array-key", "scalar"] :=
    closure_singleton_word (by decide) (by decide)
  have hcv : h.closure ["string"] = ["string", "array-key", "scalar"] :=
    closure_singleton_word (by decide) (by decide)
  obtain ⟨x, hx, rfl⟩ := (isMember_widen hms hw).exists_eq (hcw ▸ hsub)
    fun x hx => isObjectLike_scalar x (by simp at hx ⊢; tauto)
  obtain ⟨y, hy, rfl⟩ := (isMember_widen hms hv).exists_eq (hcv ▸ hsub')
    fun x hx => isObjectLike_scalar x (by simp at hx ⊢; tauto)
  simp only [List.mem_cons, List.not_mem_nil, or_false] at hx hy
  rcases hx with rfl | rfl | rfl
  · rcases hy with rfl | rfl | rfl
    · have hint := mem_of_mem_widen hw (by decide) (by decide) (by decide)
      have hstring := mem_of_mem_widen hv (by decide) (by decide) (by decide)
      exact Or.inl (mem_widen.mpr (Or.inr (.arrayKey hint hstring)))
    · exact Or.inl hv
    · exact Or.inr hv
  · exact Or.inl hw
  · exact Or.inr hw

theorem scalar_mem_widen (hb : ∃ w ∈ widen ms, w ⊆ h.closure ["bool"])
    (hf : ∃ w ∈ widen ms, w ⊆ h.closure ["float"])
    (hk : ["array-key"] ∈ widen ms ∨ ["scalar"] ∈ widen ms) : ["scalar"] ∈ widen ms := by
  obtain ⟨w, hw, hsub⟩ := hb
  obtain ⟨v, hv, hsub'⟩ := hf
  have hcw : h.closure ["bool"] = ["bool", "scalar"] :=
    closure_singleton_word (by decide) (by decide)
  have hcv : h.closure ["float"] = ["float", "scalar"] :=
    closure_singleton_word (by decide) (by decide)
  obtain ⟨x, hx, rfl⟩ := (isMember_widen hms hw).exists_eq (hcw ▸ hsub)
    fun x hx => isObjectLike_scalar x (by simp at hx ⊢; tauto)
  obtain ⟨y, hy, rfl⟩ := (isMember_widen hms hv).exists_eq (hcv ▸ hsub')
    fun x hx => isObjectLike_scalar x (by simp at hx ⊢; tauto)
  simp only [List.mem_cons, List.not_mem_nil, or_false] at hx hy
  rcases hk with hk | hk
  · rcases hx with rfl | rfl
    · rcases hy with rfl | rfl
      · have hbool := mem_of_mem_widen hw (by decide) (by decide) (by decide)
        have hfloat := mem_of_mem_widen hv (by decide) (by decide) (by decide)
        refine mem_widen.mpr (Or.inr (.scalar hbool hfloat ?_))
        rcases mem_widen.mp hk with hk | hk
        · exact Or.inl hk
        · exact Or.inr (int_string_of_implied hk rfl)
      · exact hv
    · exact hw
  · exact hk

theorem Absolute.iterable_mem_widen (ha : h.Absolute)
    (ht : ∃ w ∈ widen ms, w ⊆ h.closure ["\\Traversable"])
    (hr : ∃ w ∈ widen ms, w ⊆ h.closure ["array"]) :
    ["iterable"] ∈ widen ms ∨
      (["array"] ∈ ms ∧ (["object"] ∈ ms ∨ ["iterable", "object"] ∈ ms)) := by
  obtain ⟨w, hw, hsub⟩ := ht
  obtain ⟨v, hv, hsub'⟩ := hr
  have hwm := isMember_widen hms hw
  have hvm := isMember_widen hms hv
  have hcv : h.closure ["array"] = ["array", "iterable"] :=
    closure_singleton_word (by decide) (by decide)
  rw [hcv] at hsub'
  rcases hvm.eq_of_subset_pair (by decide) hsub' with rfl | rfl | rfl
  · have harray := mem_of_mem_widen hv (by decide) (by decide) (by decide)
    by_cases htw : "\\Traversable" ∈ w
    · -- the other types of such an object are its supertypes
      have hw₁ : w = ["\\Traversable"] := by
        refine hwm.eq_of_subset_singleton fun x hx => ?_
        by_contra hne
        have hxt := (ha.mem_closure_traversable.mp (hsub hx)).resolve_left (by simpa using hne)
        refine hwm.tidy _ htw x hx (by simpa using hne) ?_
        have hc := ha.mem_closure_traversable.mpr (Or.inr hxt)
        simpa [closure, show x ≠ "\\Traversable" by simpa using hne] using hc
      have htrav := mem_of_mem_widen (hw₁ ▸ hw) (by decide) (by decide) (by decide)
      exact Or.inl (mem_widen.mpr (Or.inr (.iterable htrav harray)))
    · have hpair : w ⊆ ["iterable", "object"] := by
        intro x hx
        rcases ha.mem_closure_traversable.mp (hsub hx) with rfl | rfl | rfl
        · exact (htw hx).elim
        · simp
        · simp
      rcases hwm.eq_of_subset_pair (by decide) hpair with rfl | rfl | rfl
      · exact Or.inl hw
      · exact Or.inr ⟨harray, Or.inl (mem_of_mem_widen hw (by decide) (by decide) (by decide))⟩
      · exact Or.inr ⟨harray, Or.inr (mem_of_mem_widen hw (by decide) (by decide) (by decide))⟩
  · exact Or.inl hv
  · have hc := hvm.eq_singleton (x := "array") (by simp) (isObjectLike_scalar _ (by simp))
    simp at hc

end Covered

structure ListsArrayObject (ms : List Member) : Prop where
  array : ["array"] ∈ ms
  object : ["object"] ∈ ms ∨ ["iterable", "object"] ∈ ms

/-- What the middle union of a chain covers the wide one covers too, unless `iterable` is implied
there and not here. -/
theorem Absolute.covered_or (ha : h.Absolute) {ns : List Member} (hms : ∀ m ∈ ms, h.IsMember m)
    (hns : ∀ n ∈ ns, ∃ w ∈ widen ms, w ⊆ h.closure n) (hm : h.IsMember m)
    (hmn : ∃ w ∈ widen ns, w ⊆ h.closure m) :
    (∃ w ∈ widen ms, w ⊆ h.closure m) ∨ ("iterable" ∈ h.closure m ∧ ListsArrayObject ms) := by
  obtain ⟨n, hn, hsub⟩ := hmn
  rcases mem_widen.mp hn with hn | hi
  · obtain ⟨w, hw, hwn⟩ := hns n hn
    exact Or.inl ⟨w, hw, List.Subset.trans hwn (ha.closure_subset hm.atoms hsub)⟩
  -- the implied members follow from members of the middle union that the wide one covers
  · have hscalar : "array-key" ∈ h.closure m → "scalar" ∈ h.closure m := by
      intro hk
      refine ha.closure_subset hm.atoms (w := ["array-key"]) (by simpa using hk) ?_
      rw [closure_singleton_word (by decide) (by decide)]
      decide
    have hsingle : ∀ {x}, [x] ∈ widen ms → x ∈ h.closure m →
        ∃ w ∈ widen ms, w ⊆ h.closure m := fun hx hxm => ⟨_, hx, by simpa using hxm⟩
    cases hi with
    | arrayKey hi hs =>
      have hk : "array-key" ∈ h.closure m := hsub (by simp)
      rcases arrayKey_mem_widen hms (hns _ hi) (hns _ hs) with hw | hw
      · exact Or.inl (hsingle hw hk)
      · exact Or.inl (hsingle hw (hscalar hk))
    | scalar hb hf hk =>
      have hkey : ["array-key"] ∈ widen ms ∨ ["scalar"] ∈ widen ms := by
        rcases hk with hk | ⟨hi, hs⟩
        · obtain ⟨w, hw, hwk⟩ := hns _ hk
          have hck : h.closure ["array-key"] = ["array-key", "scalar"] :=
            closure_singleton_word (by decide) (by decide)
          obtain ⟨x, hx, rfl⟩ := (isMember_widen hms hw).exists_eq (hck ▸ hwk)
            fun x hx => isObjectLike_scalar x (by simp at hx ⊢; tauto)
          simp only [List.mem_cons, List.not_mem_nil, or_false] at hx
          rcases hx with rfl | rfl
          · exact Or.inl hw
          · exact Or.inr hw
        · exact arrayKey_mem_widen hms (hns _ hi) (hns _ hs)
      exact Or.inl (hsingle (scalar_mem_widen hms (hns _ hb) (hns _ hf) hkey) (hsub (by simp)))
    | iterable ht hr =>
      have hit : "iterable" ∈ h.closure m := hsub (by simp)
      rcases ha.iterable_mem_widen hms (hns _ ht) (hns _ hr) with hw | ⟨harray, hobject⟩
      · exact Or.inl (hsingle hw hit)
      · exact Or.inr ⟨hit, harray, hobject⟩

theorem wordParents_iterable : ∀ r ∈ wordParents, "iterable" ∈ r.2 → r.1 = "array" := by
  decide

/-- What is `iterable` without being an array or an object. -/
theorem Absolute.eq_of_iterable (ha : h.Absolute) (hm : h.IsMember m)
    (hit : "iterable" ∈ h.closure m) (ho : "object" ∉ h.closure m) (hr : "array" ∉ h.closure m) :
    m = ["iterable"] ∨ m = ["callable", "iterable"] := by
  have hsup : ∀ {b x}, b ∈ m → x ∈ h.superTypes b → x ∈ h.closure m := fun hb hx =>
    mem_closure.mpr ⟨_, hb, Or.inr hx⟩
  have hword : ∀ b ∈ m, Text.beginsWith "static(" b = false ∧ ¬IsAbsolute b := by
    intro b hb
    cases hm.atoms b hb with
    | word _ hc => exact not_open_of_word hc
    | name _ hn => exact (ho (hsup hb ((ha.mem_superTypes_name hn).mpr (Or.inl rfl)))).elim
    | late n _ => exact (ho (hsup hb (ha.mem_superTypes_late.mpr (Or.inl (by simp))))).elim
  have hmem : "iterable" ∈ m := by
    obtain ⟨b, hb, he | hs⟩ := mem_closure.mp hit
    · exact he ▸ hb
    · obtain ⟨h₁, h₂⟩ := hword b hb
      rw [superTypes_word h₁ h₂] at hs
      cases hl : wordParents.lookup b with
      | none => simp [hl] at hs
      | some ps =>
        have hb' := wordParents_iterable (b, ps) (mem_of_lookup hl) (by simpa [hl] using hs)
        exact (hr (subset_closure (hb' ▸ hb))).elim
  rcases hm.objects with ⟨b, rfl⟩ | hall
  · exact Or.inl (by rw [List.mem_singleton.mp hmem])
  · have hpair : m ⊆ ["callable", "iterable"] := by
      intro b hb
      have hob := hall b hb
      simp only [isObjectLike, Bool.or_eq_true, List.contains_iff_mem] at hob
      rcases hob with hob | hob
      · have hne : b ≠ "object" := fun he => ho (subset_closure (he ▸ hb))
        simp only [List.mem_cons, List.not_mem_nil, or_false] at hob ⊢
        tauto
      · exact (ho (hsup hb hob)).elim
    rcases hm.eq_of_subset_pair (by decide) hpair with he | he | he
    · simp [he] at hmem
    · exact Or.inl he
    · exact Or.inr he

/-- What the wide union lacks of the narrow one in a chain through `\Traversable|array`. -/
structure Gap (a c : DocType) : Prop where
  lists : ListsArrayObject a.members
  lacks : ["iterable"] ∈ c.members ∨ (["callable", "iterable"] ∈ c.members ∧
    ["callable"] ∉ a.members ∧ ["callable", "iterable"] ∉ a.members)

theorem closure_iterable : h.closure ["iterable"] = ["iterable"] :=
  closure_singleton_word (by decide) (by decide)

theorem closure_callable_iterable : h.closure ["callable", "iterable"] = ["callable", "iterable"] := by
  simp [closure, superTypes_open]

/-- A union with `array` and an object type in normal form does not imply `iterable`. -/
theorem Canonical.not_mem_widen (hc : h.Canonical a) (ha : h.Absolute)
    (hl : ListsArrayObject a.members) : ["iterable"] ∉ widen a.members := by
  have hred : ∀ m w, m ∈ a.members → w ∈ a.members → w ⊆ h.closure m → m = w :=
    fun m w hm hw hsub => hc.irredundant m hm w hw (Or.inr (Or.inr hsub))
  intro hw
  rcases mem_widen.mp hw with hw | hi
  · have hsub : ["iterable"] ⊆ h.closure ["array"] := by
      rw [closure_singleton_word (by decide) (by decide)]
      decide
    exact absurd (hred _ _ hl.array hw hsub) (by decide)
  · have ht := traversable_of_implied hi rfl
    have hcl : ∀ x ∈ ["iterable", "object"], x ∈ h.closure ["\\Traversable"] := by
      intro x hx
      refine ha.mem_closure_traversable.mpr (Or.inr ?_)
      simpa [or_comm] using hx
    rcases hl.object with ho | ho
    · exact absurd (hred _ _ ht ho fun x hx => hcl x (List.mem_cons_of_mem _ hx)) (by decide)
    · exact absurd (hred _ _ ht ho hcl) (by decide)

/-- The gap is not bridged. -/
theorem Gap.not_fits (hg : Gap a c) (ha : h.Absolute) (hca : h.Canonical a) :
    ¬h.fits a c = true := by
  have hit := hca.not_mem_widen ha hg.lists
  intro hf
  rcases fits_iff.mp hf with rfl | rfl | hall
  · exact absurd hg.lists.array (by decide)
  · rcases hg.lacks with hm | ⟨hm, -⟩
    · exact absurd hm (by decide)
    · exact absurd hm (by decide)
  · rcases hg.lacks with hm | ⟨hm, hc, hci⟩
    · obtain ⟨w, hw, hsub⟩ := hall _ hm
      rw [closure_iterable] at hsub
      exact hit ((isMember_widen hca.members hw).eq_of_subset_singleton hsub ▸ hw)
    · obtain ⟨w, hw, hsub⟩ := hall _ hm
      rw [closure_callable_iterable] at hsub
      rcases (isMember_widen hca.members hw).eq_of_subset_pair (by decide) hsub with rfl | rfl | rfl
      · exact hc (mem_of_mem_widen hw (by decide) (by decide) (by decide))
      · exact hit hw
      · exact hci (mem_of_mem_widen hw (by decide) (by decide) (by decide))

theorem Canonical.eq_mixed (hc : h.Canonical a) (hm : ["mixed"] ∈ a.members) : a = .mixed :=
  congrArg DocType.mk (hc.separate.eq_singleton hm (by simp))

theorem Canonical.eq_never (hc : h.Canonical a) (hm : ["never"] ∈ a.members) : a = .never :=
  congrArg DocType.mk (hc.separate.eq_singleton hm (by simp))

/-- Where there is no gap a wide union covers what the middle one covers. -/
theorem Absolute.covered_of_not_gap (ha : h.Absolute) (hca : h.Canonical a) (hcc : h.Canonical c)
    (hg : ¬Gap a c) (hab : ∀ n ∈ b.members, ∃ w ∈ widen a.members, w ⊆ h.closure n)
    (hm : m ∈ c.members) (hmb : ∃ w ∈ widen b.members, w ⊆ h.closure m) :
    ∃ w ∈ widen a.members, w ⊆ h.closure m := by
  have hmm := hcc.members m hm
  rcases ha.covered_or hca.members hab hmm hmb with hcov | ⟨hit, hl⟩
  · exact hcov
  by_contra hno
  have hout : ∀ w ∈ a.members, ¬w ⊆ h.closure m := fun w hw hsub =>
    hno ⟨w, mem_widen.mpr (Or.inl hw), hsub⟩
  have hobject : "object" ∉ h.closure m := by
    intro ho
    rcases hl.object with hw | hw
    · exact hout _ hw (by simpa using ho)
    · exact hout _ hw (by simpa using ⟨hit, ho⟩)
  have harray : "array" ∉ h.closure m := fun hr => hout _ hl.array (by simpa using hr)
  rcases ha.eq_of_iterable hmm hit hobject harray with rfl | rfl
  · exact hg ⟨hl, Or.inl hm⟩
  · refine hg ⟨hl, Or.inr ⟨hm, fun hw => ?_, fun hw => hout _ hw subset_closure⟩⟩
    exact hout _ hw (by simp [closure_callable_iterable])

/-- Being the same or narrower carries over a chain exactly where there is no gap. -/
theorem Absolute.fits_trans_iff (ha : h.Absolute) (hoa : Output h a) (hob : Output h b)
    (hoc : Output h c) (hab : h.fits a b = true) (hbc : h.fits b c = true) :
    h.fits a c = true ↔ ¬Gap a c := by
  have hca := ha.canonical_output hoa
  have hcb := ha.canonical_output hob
  have hcc := ha.canonical_output hoc
  refine ⟨fun hf hg => hg.not_fits ha hca hf, fun hg => ?_⟩
  rw [fits_iff]
  rcases fits_iff.mp hbc with rfl | hc | hbc
  · -- only `mixed` is as wide as `mixed`
    rcases fits_iff.mp hab with hm | hn | hall
    · exact Or.inl hm
    · exact absurd hn (by decide)
    · obtain ⟨w, hw, hsub⟩ := hall ["mixed"] (by simp [DocType.mixed, DocType.atom])
      rw [closure_mixed] at hsub
      obtain rfl := (isMember_widen hca.members hw).eq_of_subset_singleton hsub
      have hmem := mem_of_mem_widen hw (by decide) (by decide) (by decide)
      exact Or.inl (hca.eq_mixed hmem)
  · exact Or.inr (Or.inl hc)
  · rcases fits_iff.mp hab with hm | rfl | hall
    · exact Or.inl hm
    · -- only `never` is as narrow as `never`
      obtain ⟨m, hm⟩ := List.exists_mem_of_ne_nil _ hcc.nonempty
      obtain ⟨w, hw, hsub⟩ := hbc m hm
      have hwn : w = ["never"] := by
        rcases mem_widen.mp hw with hw | hi
        · simpa [DocType.never, DocType.atom] using hw
        · exact (not_implied_singleton hi).elim
      have hmn := ha.eq_never (hcc.members m hm) (hsub (by simp [hwn]))
      exact Or.inr (Or.inl (hcc.eq_never (hmn ▸ hm)))
    · exact Or.inr (Or.inr fun m hm => ha.covered_of_not_gap hca hcc hg hall hm (hbc m hm))

/-- A union with `array-key` is wider than one with `int`, and `int|string` than either. -/
theorem fits_trans_arrayKey :
    Absolute [] ∧ Output [] (.ofText "int|null|string") ∧ Output [] (.ofText "array-key|null") ∧
      Output [] (.ofText "int") ∧ fits [] (.ofText "int|null|string") (.ofText "array-key|null") = true ∧
      fits [] (.ofText "array-key|null") (.ofText "int") = true ∧
      (fits [] (.ofText "int|null|string") (.ofText "int") = true ↔
        ¬Gap (.ofText "int|null|string") (.ofText "int")) := by
  have ha : Absolute [] := by simp [Absolute]
  have hoa : Output [] (.ofText "int|null|string") :=
    Output.ofText "?(string|int)" (by decide +kernel)
  have hob : Output [] (.ofText "array-key|null") :=
    Output.ofText "?array-key" (by decide +kernel)
  have hoc : Output [] (.ofText "int") := Output.ofText "int<0, max>" (by decide +kernel)
  have hab : fits [] (.ofText "int|null|string") (.ofText "array-key|null") = true := by
    decide +kernel
  have hbc : fits [] (.ofText "array-key|null") (.ofText "int") = true := by decide +kernel
  exact ⟨ha, hoa, hob, hoc, hab, hbc, ha.fits_trans_iff hoa hob hoc hab hbc⟩

/-- A chain with a gap: an iterable is an array or an object, but not all its classes say so. -/
theorem not_fits_trans_iterable :
    Absolute [] ∧ Output [] (.ofText "array|object") ∧ Output [] (.ofText "\\Traversable|array") ∧
      Output [] (.ofText "iterable") ∧
      fits [] (.ofText "array|object") (.ofText "\\Traversable|array") = true ∧
      fits [] (.ofText "\\Traversable|array") (.ofText "iterable") = true ∧
      ¬fits [] (.ofText "array|object") (.ofText "iterable") = true := by
  have hoa : Output [] (.ofText "array|object") :=
    Output.ofText "array|object" (by decide +kernel)
  have hob : Output [] (.ofText "\\Traversable|array") :=
    Output.ofText "array|\\Traversable" (by decide +kernel)
  have hoc : Output [] (.ofText "iterable") := Output.ofText "iterable" (by decide +kernel)
  exact ⟨by simp [Absolute], hoa, hob, hoc, by decide +kernel, by decide +kernel, by decide +kernel⟩

end Hierarchy
end PhpDoc
