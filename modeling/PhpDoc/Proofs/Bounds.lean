import PhpDoc.Proofs.Lockstep
import PhpDoc.Proofs.Outputs
import PhpDoc.Proofs.Transitivity
/-!
Members that are bounded by others. If every member of one list is below a member of another, so
are the members that a union or an intersection makes of them, and the first type fits the second.
-/
namespace PhpDoc.Hierarchy
variable {h : Hierarchy} {as : List String} {a b : String} {m n w : Member}
  {ms ns ws ms' ns' : List Member} {P : String → Prop} {t u : DocType} {ts us : List DocType}

def Bounds (h : Hierarchy) (ms ns : List Member) : Prop :=
  ∀ n ∈ ns, ∃ m ∈ ms, h.Below n m

theorem bounds_refl (h : Hierarchy) (ms : List Member) : h.Bounds ms ms :=
  fun m hm => ⟨m, hm, below_refl h m⟩

theorem bounds_mixed (h : Hierarchy) (ns : List Member) : h.Bounds DocType.mixed.members ns :=
  fun _ _ => ⟨["mixed"], List.mem_singleton_self _, Or.inl rfl⟩

theorem Bounds.append (hb : h.Bounds ms ns) (hb' : h.Bounds ms' ns') :
    h.Bounds (ms ++ ms') (ns ++ ns') := by
  intro n hn
  rcases List.mem_append.mp hn with hn | hn
  · obtain ⟨m, hm, hnm⟩ := hb n hn
    exact ⟨m, List.mem_append_left _ hm, hnm⟩
  · obtain ⟨m, hm, hnm⟩ := hb' n hn
    exact ⟨m, List.mem_append_right _ hm, hnm⟩

/-- What a union keeps of narrow members is below what it keeps of wide ones. -/
theorem Absolute.bounds_union (ha : h.Absolute) (hms : h.MembersOf P ms) (hns : h.MembersOf P ns)
    (hb : h.Bounds ms ns) : h.Bounds (h.union ms).members (h.union ns).members := by
  have hwide := ha.selected_union (fun m hm => (hms.2 m hm).1) hms.1
  have hnarrow := ha.selected_union (fun n hn => (hns.2 n hn).1) hns.1
  intro n hn
  have hnmem := ((hnarrow.mem_iff n).mp hn).1
  obtain ⟨m, hm, hnm⟩ := hb n hnmem
  obtain ⟨y, hy, hmy⟩ := hwide.above m hm
  have hymem := ((hwide.mem_iff y).mp hy).1
  exact ⟨y, hy, ha.below_trans (hns.2 n hnmem).1 (hms.2 y hymem).1 hnm hmy⟩

/-- A wide type fits a narrow one whose members it bounds. -/
theorem fits_of_bounds (ht : h.Canonical t) (hu : h.Canonical u)
    (hb : h.Bounds t.members u.members) : h.fits t u = true := by
  refine fits_iff.mpr ?_
  by_cases hmixed : t = .mixed
  · exact Or.inl hmixed
  · by_cases hnever : u = .never
    · exact Or.inr (Or.inl hnever)
    · refine Or.inr (Or.inr fun n hn => ?_)
      obtain ⟨m, hm, rfl | rfl | hsub⟩ := hb n hn
      · exact absurd (ht.eq_mixed hm) hmixed
      · exact absurd (hu.eq_never hn) hnever
      · exact ⟨m, mem_widen.mpr (Or.inl hm), hsub⟩

theorem intersection_never (hn : "never" ∈ as) : h.intersection as = some ["never"] :=
  if_pos (by simpa using hn)

theorem intersection_singleton (h : Hierarchy) (a : String) : h.intersection [a] = some [a] := by
  by_cases hn : a = "never"
  · subst hn
    rfl
  · by_cases hm : a = "mixed"
    · subst hm
      rfl
    · unfold intersection
      rw [if_neg (by simpa using Ne.symm hn), List.filter_cons_of_pos (by simpa using hm)]
      rfl

/-- A member in normal form is intersected to itself. -/
theorem Absolute.intersection_self (ha : h.Absolute) (hm : h.IsMember m) :
    h.intersection m = some m := by
  by_cases hone : ∃ a, m = [a]
  · obtain ⟨a, rfl⟩ := hone
    exact intersection_singleton h a
  · exact ha.intersection_eq hm fun a he => hone ⟨a, he⟩

/-- Without `never` an intersection is `mixed`, or has those of the other atoms that are no
supertypes of any of them. -/
theorem Absolute.mem_intersection (ha : h.Absolute) (hc : h.Acyclic)
    (hf : ∀ a ∈ as, IsPlainAtom a) (hn : "never" ∉ as) (hi : h.intersection as = some m) :
    (m = ["mixed"] ∧ ∀ a ∈ as, a = "mixed") ∨
      ∀ k, k ∈ m ↔ (k ∈ as ∧ k ≠ "mixed") ∧ ∀ b ∈ as, b ≠ "mixed" → k ∉ h.superTypes b := by
  have hmem : ∀ k, k ∈ as.filter (· ≠ "mixed") ↔ k ∈ as ∧ k ≠ "mixed" := by simp
  unfold intersection at hi
  rw [if_neg (by simpa using hn)] at hi
  split at hi
  · next hnone =>
    simp only [hnone, List.not_mem_nil, false_iff, not_and, not_not] at hmem
    exact Or.inl ⟨(Option.some.inj hi).symm, hmem⟩
  · next a hone =>
    obtain rfl := Option.some.inj hi
    simp only [hone, List.mem_singleton] at hmem
    refine Or.inr fun k => ?_
    rw [List.mem_singleton, ← hmem]
    refine (and_iff_left_of_imp ?_).symm
    rintro rfl b hb hbm
    obtain rfl := (hmem b).mpr ⟨hb, hbm⟩
    exact ha.superTypes_irrefl (hf _ hb).isAtom
  · next hnil _ =>
    obtain ⟨kept, hkept, hout⟩ := Option.map_eq_some_iff.mp hi
    have hsub : ∀ b ∈ as.filter (· ≠ "mixed"), IsPlainAtom b := fun b hb => hf b ((hmem b).mp hb).1
    obtain ⟨n, hmet, heq⟩ := met_of_tidyAtoms (fun b hb => (hsub b hb).uncut) hkept
    obtain ⟨a, hab, hall⟩ := ha.exists_least hc (fun b hb => (hsub b hb).isAtom) hnil
    rw [if_neg (List.ne_nil_of_mem ((hmet.mem_iff a).mpr ⟨hab, hall⟩))] at heq
    obtain rfl : m = n := hout.symm.trans heq
    refine Or.inr fun k => ?_
    simp only [hmet.mem_iff, hmem, and_imp]

/-- An atom that is intersected with others is a type of all values of the intersection. -/
theorem Absolute.mem_closure_of_intersection (ha : h.Absolute) (hc : h.Acyclic)
    (hf : ∀ a ∈ as, IsPlainAtom a) (hn : "never" ∉ as) (hi : h.intersection as = some m)
    (hb : b ∈ as) (hm : b ≠ "mixed") : b ∈ h.closure m := by
  rcases ha.mem_intersection hc hf hn hi with ⟨-, hall⟩ | hmem
  · exact absurd (hall b hb) hm
  · -- a least atom among those that have `b` as a type is kept
    let below := as.filter fun a => a ≠ "mixed" ∧ (b = a ∨ b ∈ h.superTypes a)
    have hbelow : ∀ a, a ∈ below ↔ a ∈ as ∧ a ≠ "mixed" ∧ h.Has a b := by simp [below, Has]
    have hatoms : ∀ a ∈ as, IsAtom a := fun a haa => (hf a haa).isAtom
    obtain ⟨k, hk, hleast⟩ := @Absolute.exists_least h below ha hc
      (fun a haa => hatoms a ((hbelow a).mp haa).1)
      (List.ne_nil_of_mem ((hbelow b).mpr ⟨hb, hm, has_self h b⟩))
    obtain ⟨hkas, hkm, hkb⟩ := (hbelow k).mp hk
    refine mem_closure.mpr ⟨k, (hmem k).mpr ⟨⟨hkas, hkm⟩, fun e he hem hke => ?_⟩, hkb⟩
    exact hleast e ((hbelow e).mpr ⟨he, hem, ha.has_trans (hatoms e he) (Or.inr hke) hkb⟩) hke

theorem isPlainAtom_flatten (hms : ∀ m ∈ ms, h.IsMember m) : ∀ a ∈ ms.flatten, IsPlainAtom a := by
  intro a haf
  obtain ⟨m, hm, ham⟩ := List.mem_flatten.mp haf
  exact (hms m hm).isPlainAtom ham

/-- An intersection is below another one if each member that the wide one has is met by a narrow one
below it. -/
theorem Absolute.below_intersection (ha : h.Absolute) (hc : h.Acyclic)
    (hb : ∀ w ∈ ws, ∃ n ∈ ns, h.Below n w) (hws : ∀ w ∈ ws, h.IsMember w)
    (hns : ∀ n ∈ ns, h.IsMember n) (hw : h.intersection ws.flatten = some w)
    (hn : h.intersection ns.flatten = some n) : h.Below n w := by
  have hwide := isPlainAtom_flatten hws
  have hnarrow := isPlainAtom_flatten hns
  by_cases hnever : "never" ∈ ns.flatten
  · exact Or.inr (Or.inl (Option.some.inj (hn.symm.trans (intersection_never hnever))))
  have hmem : h.IsMember n := isMember_of_plain hnarrow hn
  -- the narrow intersection has all types that the wide one is made of
  have htypes : ∀ a ∈ ws.flatten, a ≠ "mixed" → a ∈ h.closure n := by
    intro a haa ham
    obtain ⟨v, hv, hav⟩ := List.mem_flatten.mp haa
    obtain ⟨k, hk, rfl | rfl | hvk⟩ := hb v hv
    · exact absurd (List.mem_singleton.mp hav) ham
    · exact absurd (List.mem_flatten.mpr ⟨_, hk, List.mem_singleton_self _⟩) hnever
    · have hkm : k ≠ ["mixed"] := by
        rintro rfl
        exact ham (by simpa [closure_mixed] using hvk hav)
      have hsub : k ⊆ h.closure n := fun b hbk =>
        ha.mem_closure_of_intersection hc hnarrow hnever hn (List.mem_flatten.mpr ⟨k, hk, hbk⟩)
          fun hbm => hkm (ha.eq_mixed (hns k hk) (subset_closure (hbm ▸ hbk)))
      exact ha.closure_subset hmem.atoms hsub (hvk hav)
  by_cases hbot : "never" ∈ ws.flatten
  · exact Or.inr (Or.inl (ha.eq_never hmem (htypes _ hbot (by decide))))
  · rcases ha.mem_intersection hc hwide hbot hw with ⟨hmixed, -⟩ | hiff
    · exact Or.inl hmixed
    · refine Or.inr (Or.inr fun a haw => ?_)
      obtain ⟨⟨haa, ham⟩, -⟩ := (hiff a).mp haw
      exact htypes a haa ham

/-- The members of a wide reading bound those of a narrow one, all of them in normal form. -/
structure Widens (h : Hierarchy) (ms ns : List Member) : Prop where
  bounds : h.Bounds ms ns
  wide : h.MembersOf IsPlainAtom ms
  narrow : h.MembersOf IsPlainAtom ns

def WidensType (h : Hierarchy) (t u : DocType) : Prop :=
  Widens h t.members u.members

theorem Widens.refl (hm : h.MembersOf IsPlainAtom ms) : Widens h ms ms :=
  ⟨bounds_refl h ms, hm, hm⟩

theorem Widens.append (hw : Widens h ms ns) (hw' : Widens h ms' ns') :
    Widens h (ms ++ ms') (ns ++ ns') :=
  ⟨hw.bounds.append hw'.bounds, hw.wide.append hw'.wide, hw.narrow.append hw'.narrow⟩

theorem widens_constant {w : String} (hw : w ∈ Grammar.constants) : Widens h [[w]] [[w]] := by
  have hp := Grammar.isPlainAtom_constant hw
  exact .refl ⟨by simp, by simpa using ⟨isMember_singleton hp.uncut hp.isAtom, hp⟩⟩

/-- What is unknown is anything in a wide reading and nothing in a narrow one. -/
theorem widensType_unknown : WidensType h .mixed .never :=
  ⟨bounds_mixed h _, (widens_constant (by decide)).wide, (widens_constant (by decide)).wide⟩

theorem Absolute.widensType_union (ha : h.Absolute) (hw : Widens h ms ns) :
    WidensType h (h.union ms) (h.union ns) :=
  ⟨ha.bounds_union hw.wide hw.narrow hw.bounds, (ha.canonicalOf_union hw.wide).membersOf,
    (ha.canonicalOf_union hw.narrow).membersOf⟩

theorem widens_flatten {mss nss : List (List Member)} (hw : Parse.Items (Widens h) mss nss) :
    Widens h mss.flatten nss.flatten := by
  obtain ⟨hne, hall⟩ := hw
  induction hall with
  | nil => exact (hne rfl).elim
  | @cons ms ns mss nss hm hrest ih =>
    cases hrest with
    | nil => simpa using hm
    | cons => exact hm.append (ih (by simp))

inductive Joins (h : Hierarchy) : List DocType → List Member → Prop
  | one (t : DocType) : Joins h [t] t.members
  | more (ts : List DocType) (m : Member) (hlen : 2 ≤ ts.length)
      (hone : ∀ t ∈ ts, t.isUnion = false)
      (hm : h.intersection (ts.flatMap DocType.atoms) = some m) : Joins h ts [m]

theorem flatMap_atoms (ts : List DocType) :
    ts.flatMap DocType.atoms = (ts.flatMap DocType.members).flatten := by
  induction ts with
  | nil => rfl
  | cons t ts ih => simp [DocType.atoms, ih]

theorem isUnion_eq_false_iff (hne : t.members ≠ []) :
    t.isUnion = false ↔ ∃ m, t.members = [m] := by
  match ht : t.members, hne with
  | [m], _ => simp [DocType.isUnion, ht]
  | m :: n :: rest, _ => simp [DocType.isUnion, ht]

theorem membersOf_plain (hne : ms ≠ []) (hms : ∀ m ∈ ms, h.IsMember m) :
    h.MembersOf IsPlainAtom ms :=
  ⟨hne, fun m hm => ⟨hms m hm, fun _ ham => (hms m hm).isPlainAtom ham⟩⟩

theorem membersOf_intersection {m : Member} (hms : ∀ m ∈ ms, h.IsMember m)
    (hi : h.intersection ms.flatten = some m) : h.MembersOf IsPlainAtom [m] := by
  have hmem : h.IsMember m := isMember_of_plain (isPlainAtom_flatten hms) hi
  exact membersOf_plain (by simp) (by simpa using hmem)

/-- Types that are not unions are met by narrower ones member by member. -/
theorem exists_below_of_widens (hw : Parse.Items (WidensType h) ts us)
    (hone : ∀ t ∈ ts, t.isUnion = false) {w : Member} (hm : w ∈ ts.flatMap DocType.members) :
    ∃ n ∈ us.flatMap DocType.members, h.Below n w := by
  obtain ⟨t, ht, hwt⟩ := List.mem_flatMap.mp hm
  obtain ⟨u, hu, htu⟩ := hw.exists_right t ht
  obtain ⟨n, hn⟩ := List.exists_mem_of_ne_nil _ htu.narrow.1
  obtain ⟨v, hv, hnv⟩ := htu.bounds n hn
  obtain ⟨m, hm⟩ := (isUnion_eq_false_iff htu.wide.1).mp (hone t ht)
  obtain rfl : v = m := by simpa [hm] using hv
  obtain rfl : w = v := by simpa [hm] using hwt
  exact ⟨n, List.mem_flatMap.mpr ⟨u, hu, hn⟩, hnv⟩

/-- Parts that are read widely and narrowly add such members. -/
theorem Absolute.widens_of_joins (ha : h.Absolute) (hc : h.Acyclic)
    (hw : Parse.Items (WidensType h) ts us)
    (hm : Joins h ts ms) (hn : Joins h us ns) : Widens h ms ns := by
  cases hm with
  | one t =>
    cases hn with
    | one u => exact (List.forall₂_cons.mp hw.2).1
    | more _ n hlen =>
      rw [← hw.2.length_eq] at hlen
      exact absurd hlen (by simp)
  | more _ w hlen hone hwide =>
    cases hn with
    | one u =>
      rw [hw.2.length_eq] at hlen
      exact absurd hlen (by simp)
    | more _ n _ _ hnarrow =>
      rw [flatMap_atoms] at hwide hnarrow
      have hws : ∀ m ∈ ts.flatMap DocType.members, h.IsMember m := by
        intro m hm
        obtain ⟨t, ht, hmt⟩ := List.mem_flatMap.mp hm
        obtain ⟨u, -, htu⟩ := hw.exists_right t ht
        exact (htu.wide.2 m hmt).1
      have hns : ∀ m ∈ us.flatMap DocType.members, h.IsMember m := by
        intro m hm
        obtain ⟨u, hu, hmu⟩ := List.mem_flatMap.mp hm
        obtain ⟨t, -, htu⟩ := hw.exists_left u hu
        exact (htu.narrow.2 m hmu).1
      have hbelow := ha.below_intersection hc (fun w => exists_below_of_widens hw hone) hws hns
        hwide hnarrow
      exact ⟨by simpa [Bounds] using hbelow, membersOf_intersection hws hwide,
        membersOf_intersection hns hnarrow⟩

end PhpDoc.Hierarchy
