import PhpDoc.Proofs.Selection
/-!
The normal forms of intersections and unions. The normal form of a union is kept when it is formed
again.
-/
namespace PhpDoc
namespace Hierarchy
variable {h : Hierarchy} {a w x : String} {as kept : List String} {m n : Member} {ms : List Member}
  {t : DocType}

theorem mem_of_foldlM_drop {drop : List String → String → Option (List String)}
    (hd : ∀ ks b ks', drop ks b = some ks' → h.isObjectLike b = true ∧
      ∀ k, k ∈ ks' ↔ k ∈ ks ∧ k ∉ h.superTypes b)
    {start : List String} (hf : as.foldlM drop start = some kept) :
    (∀ b ∈ as, h.isObjectLike b = true) ∧
      ∀ k, k ∈ kept ↔ k ∈ start ∧ ∀ b ∈ as, k ∉ h.superTypes b := by
  induction as generalizing start with
  | nil =>
    obtain rfl : start = kept := by simpa using hf
    simp
  | cons b as ih =>
    rw [List.foldlM_cons] at hf
    obtain ⟨mid, hm, hf⟩ := Option.bind_eq_some_iff.mp hf
    obtain ⟨hb, hmid⟩ := hd _ _ _ hm
    obtain ⟨has, hkept⟩ := ih hf
    refine ⟨by simpa using ⟨hb, has⟩, fun k => ?_⟩
    rw [hkept, hmid, List.forall_mem_cons, and_assoc]

/-- Tidying keeps the atoms that are no supertypes of others, all of them object-like. -/
theorem mem_of_tidyAtoms (ht : h.tidyAtoms as = some kept) :
    (∀ b ∈ as, h.isObjectLike b = true) ∧
      ∀ k, k ∈ kept ↔ k ∈ as ∧ ∀ b ∈ as, k ∉ h.superTypes b := by
  refine mem_of_foldlM_drop ?_ ht
  intro ks b ks' hd
  dsimp only at hd
  split at hd
  · next ho =>
    obtain rfl := Option.some.inj hd
    exact ⟨ho, fun k => by simp⟩
  · cases hd

/-- Atoms in order, seen as members. -/
theorem exists_arrange_singletons (hu : ∀ a ∈ as, IsUncut a) :
    ∃ l : List String, Member.arrange (as.map fun a => [a]) = l.map (fun a => [a]) ∧
      l.Pairwise (· < ·) ∧ ∀ a, a ∈ l ↔ a ∈ as := by
  have hplain : ∀ m ∈ as.map fun a => [a], Member.IsPlain m := by
    intro m hm
    obtain ⟨a, ha, rfl⟩ := List.mem_map.mp hm
    exact Member.isPlain_singleton (hu a ha)
  have hs := Member.sorted_arrange hplain
  have hone : ∀ m ∈ Member.arrange (as.map fun a => [a]), [m.text] = m := by
    intro m hm
    obtain ⟨a, -, rfl⟩ := List.mem_map.mp (Member.mem_arrange.mp hm)
    rw [Member.text_singleton]
  obtain ⟨l, hl⟩ : ∃ l : List String, l.map (fun a => [a]) = Member.arrange (as.map fun a => [a]) := by
    refine ⟨(Member.arrange (as.map fun a => [a])).map Member.text, ?_⟩
    rw [List.map_map]
    exact (List.map_congr_left hone).trans (List.map_id' _)
  refine ⟨l, hl.symm, ?_, fun a => ?_⟩
  · rw [← hl, Member.Sorted, List.pairwise_map] at hs
    simpa using hs
  · have hm : [a] ∈ l.map (fun a => [a]) ↔ [a] ∈ as.map fun a => [a] := by
      rw [hl]
      exact Member.mem_arrange
    simpa using hm

/-- What is left of several atoms that are intersected: in order, those that are no supertypes. -/
structure Met (h : Hierarchy) (as : List String) (m : Member) : Prop where
  objects : ∀ a ∈ as, h.isObjectLike a = true
  sorted : m.Pairwise (· < ·)
  mem_iff : ∀ k, k ∈ m ↔ k ∈ as ∧ ∀ b ∈ as, k ∉ h.superTypes b

theorem flatten_singletons {α : Type} (l : List α) : (l.map fun a => [a]).flatten = l := by
  rw [← List.flatMap_def, List.flatMap_singleton']

/-- The outcome of tidying, a nameless atom if nothing is left. -/
theorem met_of_tidyAtoms (hu : ∀ a ∈ as, IsUncut a) (ht : h.tidyAtoms as = some kept) :
    ∃ n, h.Met as n ∧ (match Member.arrange (kept.map fun a => [a]) with
      | [] => [""]
      | ms => ms.flatten) = if n = [] then [""] else n := by
  obtain ⟨hobj, hkept⟩ := mem_of_tidyAtoms ht
  obtain ⟨l, hl, hlt, hmem⟩ := exists_arrange_singletons fun a ha => hu a ((hkept a).mp ha).1
  refine ⟨l, ⟨hobj, hlt, fun k => (hmem k).trans (hkept k)⟩, ?_⟩
  rw [hl]
  cases l with
  | nil => rfl
  | cons b l =>
    rw [if_neg (by simp)]
    exact flatten_singletons (b :: l)

/-- The outcomes of an intersection. -/
theorem intersection_cases (hu : ∀ a ∈ as, IsUncut a) (hi : h.intersection as = some m) :
    m = ["never"] ∨ m = ["mixed"] ∨ (∃ a ∈ as, m = [a]) ∨
      ∃ bs n, bs ≠ [] ∧ bs ⊆ as ∧ h.Met bs n ∧ m = if n = [] then [""] else n := by
  unfold intersection at hi
  split at hi
  · exact Or.inl (Option.some.inj hi).symm
  · have hsub : as.filter (· ≠ "mixed") ⊆ as := fun b hb => (List.mem_filter.mp hb).1
    split at hi
    · exact Or.inr (Or.inl (Option.some.inj hi).symm)
    · next a he =>
      have hm : a ∈ as.filter (· ≠ "mixed") := by
        rw [he]
        exact List.mem_singleton_self a
      exact Or.inr (Or.inr (Or.inl ⟨a, hsub hm, (Option.some.inj hi).symm⟩))
    · next hnil _ =>
      obtain ⟨kept, hk, rfl⟩ := Option.map_eq_some_iff.mp hi
      obtain ⟨n, hn, he⟩ := met_of_tidyAtoms (fun a ha => hu a (hsub ha)) hk
      exact Or.inr (Or.inr (Or.inr ⟨_, n, fun he => hnil he, hsub, hn, he⟩))

theorem isMember_word {w : String}
    (hw : ∀ d ∈ w.toList, d ∉ ['\\', '(', ')', '|', '&']) : h.IsMember [w] := by
  refine isMember_singleton ⟨fun hm => hw _ hm (by simp), fun hm => hw _ hm (by simp)⟩ (.word w ?_)
  exact fun d hm => ⟨fun he => hw d hm (by simp [he]), fun he => hw d hm (by simp [he]),
    fun he => hw d hm (by simp [he])⟩

/-- An intersection of atoms is in normal form. -/
theorem isMember_intersection (hu : ∀ a ∈ as, IsUncut a) (hf : ∀ a ∈ as, IsAtom a)
    (hi : h.intersection as = some m) : h.IsMember m := by
  obtain rfl | rfl | ⟨a, ha, rfl⟩ | ⟨bs, n, -, hsub, hn, rfl⟩ := intersection_cases hu hi
  · exact isMember_word (by decide)
  · exact isMember_word (by decide)
  · exact isMember_singleton (hu a ha) (hf a ha)
  · split
    · exact isMember_word (by decide)
    · next hne =>
      have hin : ∀ b ∈ n, b ∈ bs := fun b hb => ((hn.mem_iff b).mp hb).1
      refine ⟨⟨hne, fun b hb => hu b (hsub (hin b hb))⟩, fun b hb => hf b (hsub (hin b hb)),
        Or.inr fun b hb => hn.objects b (hin b hb), ?_, hn.sorted⟩
      exact fun b hb d hd _ => ((hn.mem_iff d).mp hd).2 b (hin b hb)

/-- Atoms in strict order are told by which atoms they are. -/
theorem eq_of_pairwise_lt {l l' : List String} (hl : l.Pairwise (· < ·)) (hl' : l'.Pairwise (· < ·))
    (he : ∀ x, x ∈ l ↔ x ∈ l') : l = l' := by
  have hnodup : ∀ {l : List String}, l.Pairwise (· < ·) → l.Nodup := fun hl =>
    hl.imp fun hlt => String.ne_of_lt hlt
  have hp : l.Perm l' := (List.perm_ext_iff_of_nodup (hnodup hl) (hnodup hl')).mpr he
  exact hp.eq_of_pairwise (fun a b _ _ hab hba => absurd hba (String.lt_asymm hab)) hl hl'

theorem IsMember.eq_of_mem_iff (hm : h.IsMember m) {l : List String} (hl : l.Pairwise (· < ·))
    (he : ∀ x, x ∈ m ↔ x ∈ l) : m = l :=
  eq_of_pairwise_lt hm.sorted hl he

/-- No two classes are ancestors of each other. -/
def Acyclic (h : Hierarchy) : Prop :=
  ∀ a b, h.Ancestor a b → h.Ancestor b a → a = b

theorem wordParents_acyclic : ∀ r ∈ wordParents, r.1 ∉ r.2 ∧
    ∀ s ∈ r.2, r.1 ∉ (wordParents.lookup s).getD [] := by
  decide

theorem mem_wordParents (hx : x ∈ (wordParents.lookup a).getD []) :
    ∃ ps, (a, ps) ∈ wordParents ∧ x ∈ ps := by
  cases hl : wordParents.lookup a with
  | none => simp [hl] at hx
  | some ps =>
    exact ⟨ps, mem_of_lookup hl, by simpa [hl] using hx⟩

theorem lateBound_open (n : String) : ¬IsAbsolute (lateBound n) ∧ lateBound n ∉ wordSupers := by
  constructor
  · intro hb
    obtain ⟨cs, hcs⟩ := isAbsolute_iff.mp hb
    rw [toList_lateBound] at hcs
    exact absurd (List.cons.inj hcs).1 (by decide)
  · intro hm
    have hall : ∀ w ∈ wordSupers, '(' ∉ w.toList := by decide
    exact hall _ hm (by simp [toList_lateBound])

theorem Absolute.superTypes_irrefl (ha : h.Absolute) (hf : IsAtom a) : a ∉ h.superTypes a := by
  intro hx
  cases hf with
  | word _ hc =>
    obtain ⟨hs, hn⟩ := not_open_of_word hc
    rw [superTypes_word hs hn] at hx
    obtain ⟨ps, hp, hx⟩ := mem_wordParents hx
    exact (wordParents_acyclic _ hp).1 hx
  | name _ hn =>
    cases (ha.mem_superTypes_name hn).mp hx with
    | inl he => exact absurd (he ▸ hn) (by decide)
    | inr hup => exact hup.1 rfl
  | late n hn =>
    exact (ha.mem_wordSupers (.late n hn) hx).elim (lateBound_open n).1 (lateBound_open n).2

/-- No atom is a supertype of one of its supertypes. -/
theorem Absolute.superTypes_asymm (ha : h.Absolute) (hc : h.Acyclic) (hf : IsAtom a)
    (hb : IsAtom x) (hx : x ∈ h.superTypes a) : a ∉ h.superTypes x := by
  intro hax
  cases hf with
  | word _ hw =>
    obtain ⟨hs, hn⟩ := not_open_of_word hw
    rw [superTypes_word hs hn] at hx
    obtain ⟨ps, hp, hx⟩ := mem_wordParents hx
    obtain ⟨⟨hxs, hxn⟩, -⟩ := wordParents_closed _ hp x hx
    rw [superTypes_word hxs hxn] at hax
    exact (wordParents_acyclic _ hp).2 x hx hax
  | name _ hn =>
    obtain rfl | ⟨hne, hup⟩ := (ha.mem_superTypes_name hn).mp hx
    · simp [superTypes_open.1] at hax
    · obtain hxn | he := ha.of_ancestor hup
      · obtain rfl | ⟨-, hdown⟩ := (ha.mem_superTypes_name hxn).mp hax
        · exact absurd hn (by decide)
        · exact hne (hc _ _ hup hdown).symm
      · simp [he] at hax
  | late n hn => exact (ha.mem_wordSupers hb hax).elim (lateBound_open n).1 (lateBound_open n).2

/-- Some atom of a list is no supertype of the others. -/
theorem Absolute.exists_least (ha : h.Absolute) (hc : h.Acyclic) (hf : ∀ a ∈ as, IsAtom a)
    (hne : as ≠ []) : ∃ a ∈ as, ∀ b ∈ as, a ∉ h.superTypes b := by
  induction as with
  | nil => exact (hne rfl).elim
  | cons b as ih =>
    have hb := hf b (by simp)
    cases as with
    | nil => exact ⟨b, by simp, by simpa using ha.superTypes_irrefl hb⟩
    | cons d as =>
      have hrest : ∀ a ∈ d :: as, IsAtom a := fun a hm => hf a (List.mem_cons_of_mem _ hm)
      obtain ⟨a, ham, hall⟩ := ih hrest (by simp)
      by_cases hab : a ∈ h.superTypes b
      · refine ⟨b, by simp, fun e he hbe => ?_⟩
        obtain rfl | he := List.mem_cons.mp he
        · exact ha.superTypes_irrefl hb hbe
        · have hea : h.Has e a := ha.has_trans (hrest e he) (Or.inr hbe) (Or.inr hab)
          obtain rfl | hea := hea
          · exact ha.superTypes_asymm hc hb (hrest _ he) hab hbe
          · exact hall e he hea
      · refine ⟨a, List.mem_cons_of_mem _ ham, fun e he => ?_⟩
        obtain rfl | he := List.mem_cons.mp he
        · exact hab
        · exact hall e he

/-- An intersection has atoms of what is intersected, or is one of two words. -/
theorem Absolute.subset_of_intersection (ha : h.Absolute) (hc : h.Acyclic)
    (hu : ∀ a ∈ as, IsUncut a) (hf : ∀ a ∈ as, IsAtom a) (hi : h.intersection as = some m) :
    m = ["never"] ∨ m = ["mixed"] ∨ m ⊆ as := by
  obtain rfl | rfl | ⟨a, hm, rfl⟩ | ⟨bs, n, hne, hsub, hn, rfl⟩ := intersection_cases hu hi
  · exact Or.inl rfl
  · exact Or.inr (Or.inl rfl)
  · exact Or.inr (Or.inr (by simpa using hm))
  · obtain ⟨a, hab, hall⟩ := ha.exists_least hc (fun b hb => hf b (hsub hb)) hne
    have hmem : a ∈ n := (hn.mem_iff a).mpr ⟨hab, hall⟩
    rw [if_neg (List.ne_nil_of_mem hmem)]
    exact Or.inr (Or.inr fun b hb => hsub ((hn.mem_iff b).mp hb).1)

theorem exists_foldlM_drop {drop : List String → String → Option (List String)}
    (hd : ∀ ks b, h.isObjectLike b = true → ∃ ks', drop ks b = some ks')
    (hobj : ∀ b ∈ as, h.isObjectLike b = true) (start : List String) :
    ∃ kept, as.foldlM drop start = some kept := by
  induction as generalizing start with
  | nil => exact ⟨start, rfl⟩
  | cons b as ih =>
    obtain ⟨mid, hm⟩ := hd start b (hobj b (by simp))
    obtain ⟨kept, hk⟩ := ih (fun d hd => hobj d (List.mem_cons_of_mem _ hd)) mid
    exact ⟨kept, by rw [List.foldlM_cons, hm]; exact hk⟩

/-- What is left of several atoms is left again of itself. -/
theorem Met.intersection_self (hm : h.Met as m) (hu : ∀ a ∈ m, IsUncut a) (hne : m ≠ []) :
    h.intersection m = some m := by
  have hobj : ∀ a ∈ m, h.isObjectLike a = true := fun a ha =>
    hm.objects a ((hm.mem_iff a).mp ha).1
  have hword : ∀ w, h.isObjectLike w = false → w ∉ m := fun w hw hmem => by
    simp [hobj w hmem] at hw
  have hfilter : m.filter (· ≠ "mixed") = m := by
    refine List.filter_eq_self.mpr fun a hmem => ?_
    have hne : a ≠ "mixed" := fun he => hword _ isObjectLike_mixed (he ▸ hmem)
    simpa using hne
  obtain ⟨kept, hk⟩ : ∃ kept, h.tidyAtoms m = some kept :=
    exists_foldlM_drop (fun ks b hb => ⟨_, if_pos hb⟩) hobj m
  obtain ⟨n, hn, hout⟩ := met_of_tidyAtoms hu hk
  have hmem : ∀ a, a ∈ n ↔ a ∈ m := by
    intro a
    refine (hn.mem_iff a).trans ⟨fun h => h.1, fun ham => ⟨ham, fun b hb => ?_⟩⟩
    exact ((hm.mem_iff a).mp ham).2 b ((hm.mem_iff b).mp hb).1
  obtain rfl := eq_of_pairwise_lt hn.sorted hm.sorted hmem
  rw [if_neg hne] at hout
  unfold intersection
  rw [if_neg (by simpa using hword _ isObjectLike_never), hfilter]
  match n, hne, hk, hout with
  | [a], _, _, _ => rfl
  | a :: b :: rest, _, hk, hout =>
    dsimp only
    rw [hk, Option.map_some]
    exact congrArg some hout

/-- Object-like atoms of a normal form are intersected to that form. -/
theorem Absolute.intersection_eq (ha : h.Absolute) (hm : h.IsMember m) (hlen : ∀ a, m ≠ [a]) :
    h.intersection m = some m := by
  have hmet : h.Met m m := by
    refine ⟨hm.objects.resolve_left fun ⟨a, he⟩ => hlen a he, hm.sorted, fun a => ?_⟩
    refine ⟨fun ham => ⟨ham, fun b hb => ?_⟩, fun ham => ham.1⟩
    by_cases he : a = b
    · exact he ▸ ha.superTypes_irrefl (hm.atoms a ham)
    · exact hm.tidy b hb a ham he
  exact hmet.intersection_self hm.uncut hm.nonempty

structure Separate (h : Hierarchy) (ms : List Member) : Prop where
  plain : ∀ m ∈ ms, m.IsPlain
  sorted : Member.Sorted ms
  irredundant : ∀ m ∈ ms, ∀ n ∈ ms, h.Below m n → m = n

theorem separate_singleton (hm : m.IsPlain) : h.Separate [m] where
  plain := by simpa using hm
  sorted := List.pairwise_singleton _ _
  irredundant := by simp

/-- Where `mixed` or `never` is a separate member there is no other one. -/
theorem Separate.eq_singleton (hs : h.Separate ms) (hm : [w] ∈ ms) (hw : w ∈ ["mixed", "never"]) :
    ms = [[w]] := by
  have hall : ∀ n ∈ ms, n = [w] := by
    intro n hn
    obtain rfl | rfl : w = "mixed" ∨ w = "never" := by simpa using hw
    · exact hs.irredundant n hn _ hm (Or.inl rfl)
    · exact (hs.irredundant _ hm n hn (Or.inr (Or.inl rfl))).symm
  refine hs.sorted.eq_of_mem_iff (List.pairwise_singleton _ _) fun n => ?_
  exact ⟨fun hn => by simpa using hall n hn, fun hn => List.mem_singleton.mp hn ▸ hm⟩

theorem dropNarrower_eq_self {rest kept : List Member}
    (hi : ∀ m ∈ kept, ∀ n ∈ kept, h.Below m n → m = n) (hr : rest ⊆ kept) :
    h.dropNarrower rest kept = kept := by
  induction rest with
  | nil => rfl
  | cons z rest ih =>
    obtain ⟨hz, hr⟩ := List.cons_subset.mp hr
    have hfilter : (kept.filter fun m => m == z || !h.fits ⟨[z]⟩ ⟨[m]⟩) = kept := by
      refine List.filter_eq_self.mpr fun m hm => ?_
      by_cases hb : h.Below m z
      · simp [hi m hm z hz hb]
      · have hf : h.fits ⟨[z]⟩ ⟨[m]⟩ = false := by simpa using mt fits_singleton.mp hb
        simp [hf]
    rw [dropNarrower, if_pos (by simpa using hz), hfilter, ih hr]

/-- Separate members make a union as they are. -/
theorem Separate.union_eq (hs : h.Separate ms) : h.union ms = ⟨ms⟩ := by
  have harrange : Member.arrange ms = ms :=
    (Member.sorted_arrange hs.plain).eq_of_mem_iff hs.sorted fun _ => Member.mem_arrange
  unfold union
  rw [harrange]
  split
  · rfl
  · next hone =>
    have hword : ∀ w ∈ ["mixed", "never"], [w] ∉ ms := fun w hw hm =>
      hone _ (hs.eq_singleton hm hw)
    have hfilter : ms.filter (· ≠ ["never"]) = ms := by
      refine List.filter_eq_self.mpr fun m hm => ?_
      simpa using fun he : m = ["never"] => hword "never" (by simp) (he ▸ hm)
    rw [if_neg (by simpa using hword "mixed" (by simp)), hfilter]
    exact congrArg DocType.mk (dropNarrower_eq_self hs.irredundant (List.Subset.refl ms))

theorem dropNarrower_ne_nil {rest kept : List Member} (hne : kept ≠ []) :
    h.dropNarrower rest kept ≠ [] := by
  induction rest generalizing kept with
  | nil => exact hne
  | cons z rest ih =>
    rw [dropNarrower]
    split
    · next hz =>
      have hzk : z ∈ kept := by simpa using hz
      exact ih (List.ne_nil_of_mem (List.mem_filter.mpr ⟨hzk, by simp⟩))
    · exact ih hne

/-- A union has separate members, all of them members that it was formed from. -/
theorem separate_union (hms : ∀ m ∈ ms, m.IsPlain) (hne : ms ≠ []) :
    h.Separate (h.union ms).members ∧ (h.union ms).members ≠ [] ∧ (h.union ms).members ⊆ ms := by
  have hmem : Member.arrange ms ⊆ ms := fun m hm => Member.mem_arrange.mp hm
  have hs : Member.Sorted (Member.arrange ms) := Member.sorted_arrange hms
  have hone : ∀ m ∈ Member.arrange ms, h.Separate [m] ∧ [m] ≠ [] ∧ [m] ⊆ ms := fun m hm =>
    ⟨separate_singleton (hms m (hmem hm)), by simp, by simpa using hmem hm⟩
  unfold union
  split
  · next m he => exact hone m (by simp [he])
  · next hmany =>
    split
    · next hmixed => exact hone ["mixed"] (by simpa using hmixed)
    · have hsub := dropNarrower_sublist h ((Member.arrange ms).filter (· ≠ ["never"]))
        ((Member.arrange ms).filter (· ≠ ["never"]))
      have hin : h.dropNarrower ((Member.arrange ms).filter (· ≠ ["never"]))
          ((Member.arrange ms).filter (· ≠ ["never"])) ⊆ ms := fun m hm =>
        hmem (List.mem_filter.mp (hsub.subset hm)).1
      refine ⟨⟨fun m hm => hms m (hin hm), (hs.filter _).sublist hsub, fun m hm n hn hb => ?_⟩,
        dropNarrower_ne_nil (filter_ne_nil_of_sorted hs (arrange_ne_nil hne) hmany), hin⟩
      exact eq_of_mem_dropNarrower hm hn (hsub.subset hn) hb

structure Canonical (h : Hierarchy) (t : DocType) : Prop where
  nonempty : t.members ≠ []
  members : ∀ m ∈ t.members, h.IsMember m
  sorted : Member.Sorted t.members
  irredundant : ∀ m ∈ t.members, ∀ n ∈ t.members, h.Below m n → m = n

theorem canonical_atom (hu : IsUncut a) (hf : IsAtom a) : h.Canonical (.atom a) where
  nonempty := by simp [DocType.atom]
  members := by simpa [DocType.atom] using isMember_singleton hu hf
  sorted := List.pairwise_singleton _ _
  irredundant := by simp [DocType.atom]

theorem Canonical.separate (ht : h.Canonical t) : h.Separate t.members :=
  ⟨fun m hm => (ht.members m hm).toIsPlain, ht.sorted, ht.irredundant⟩

/-- A union is in normal form. -/
theorem canonical_union (hms : ∀ m ∈ ms, h.IsMember m) (hne : ms ≠ []) :
    h.Canonical (h.union ms) := by
  obtain ⟨hs, hsome, hsub⟩ := separate_union (h := h) (fun m hm => (hms m hm).toIsPlain) hne
  exact ⟨hsome, fun m hm => hms m (hsub hm), hs.sorted, hs.irredundant⟩

/-- Forming a union again changes nothing. -/
theorem Canonical.union_members (ht : h.Canonical t) : h.union t.members = t :=
  ht.separate.union_eq

end Hierarchy
end PhpDoc
