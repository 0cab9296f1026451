import PhpDoc.Type.Normal
import PhpDoc.Proofs.Arrange
import PhpDoc.Proofs.Closure
/-!
What a union keeps of its members. Being narrower is a preorder on members, and a union keeps of
each class of greatest members the first one, in strict order.
-/
namespace PhpDoc.Hierarchy
variable {h : Hierarchy} {a b x : String} {m n w y z : Member} {ms rest kept : List Member}

structure IsMember (h : Hierarchy) (m : Member) : Prop extends m.IsPlain where
  atoms : ∀ a ∈ m, IsAtom a
  objects : (∃ a, m = [a]) ∨ ∀ a ∈ m, h.isObjectLike a = true
  tidy : ∀ a ∈ m, ∀ b ∈ m, b ≠ a → b ∉ h.superTypes a
  sorted : m.Pairwise (· < ·)

theorem isMember_singleton (hu : IsUncut a) (hf : IsAtom a) : h.IsMember [a] where
  toIsPlain := Member.isPlain_singleton hu
  atoms := by simpa using hf
  objects := Or.inl ⟨a, rfl⟩
  tidy := by
    intro b hb c hc hne
    simp_all
  sorted := List.pairwise_singleton _ _

def wordSupers : List String :=
  ["array-key", "scalar", "callable", "string", "iterable", "self", "parent", "object", "static"]

theorem wordParents_supers : ∀ r ∈ wordParents, ∀ s ∈ r.2, s ∈ wordSupers := by
  decide

/-- Supertypes are classes, or words of a short list. -/
theorem Absolute.mem_wordSupers (ha : h.Absolute) (hf : IsAtom a) (hx : x ∈ h.superTypes a) :
    IsAbsolute x ∨ x ∈ wordSupers := by
  have hanc : ∀ {n}, h.Ancestor n x → IsAbsolute x ∨ x ∈ wordSupers := by
    intro n hn
    obtain ⟨p, -, hp⟩ := Relation.TransGen.tail'_iff.mp hn
    rcases (ha.of_listed hp).2 with hn | rfl | rfl
    · exact Or.inl hn
    · exact Or.inr (by decide)
    · exact Or.inr (by decide)
  cases hf with
  | word _ hc =>
    obtain ⟨hs, hn⟩ := not_open_of_word hc
    rw [superTypes_word hs hn] at hx
    cases hl : wordParents.lookup a with
    | none => simp [hl] at hx
    | some ps =>
      exact Or.inr (wordParents_supers (a, ps) (mem_of_lookup hl) x (by simpa [hl] using hx))
  | name _ hn =>
    rcases (ha.mem_superTypes_name hn).mp hx with rfl | ⟨-, hup⟩
    · exact Or.inr (by decide)
    · exact hanc hup
  | late n hn =>
    rcases ha.mem_superTypes_late.mp hx with hw | rfl | hup
    · have hsub : ∀ w ∈ ["static", "self", "parent", "object"], w ∈ wordSupers := by decide
      exact Or.inr (hsub x hw)
    · exact Or.inl hn
    · exact hanc hup

/-- A word outside the list is a type of nothing but itself. -/
theorem Absolute.eq_of_has (ha : h.Absolute) (hf : IsAtom a) (hx : h.Has a x)
    (hw : ¬IsAbsolute x ∧ x ∉ wordSupers) : a = x := by
  rcases hx with rfl | hx
  · rfl
  · exact ((ha.mem_wordSupers hf hx).elim hw.1 hw.2).elim

/-- A member with an atom that is not object-like has no other atom. -/
theorem IsMember.eq_singleton (hm : h.IsMember m) (hx : x ∈ m) (ho : h.isObjectLike x = false) :
    m = [x] := by
  rcases hm.objects with ⟨a, rfl⟩ | hall
  · rw [List.mem_singleton.mp hx]
  · simp [hall x hx] at ho

theorem isObjectLike_word (hs : Text.beginsWith "static(" a = false) (hb : ¬IsAbsolute a) :
    h.isObjectLike a = (["object", "iterable", "callable"].contains a ||
      ((wordParents.lookup a).getD []).contains "object") := by
  rw [isObjectLike, superTypes_word hs hb]

/-- A member below a word that is not object-like and no supertype is that word. -/
theorem Absolute.eq_singleton_of_closure (ha : h.Absolute) (hm : h.IsMember m)
    (hx : x ∈ h.closure m) (hw : ¬IsAbsolute x ∧ x ∉ wordSupers)
    (ho : h.isObjectLike x = false) : m = [x] := by
  obtain ⟨a, ham, hax⟩ := mem_closure.mp hx
  obtain rfl := ha.eq_of_has (hm.atoms a ham) hax hw
  exact hm.eq_singleton ham ho

theorem isObjectLike_mixed : h.isObjectLike "mixed" = false := by
  rw [isObjectLike_word (by decide) (by decide)]
  decide

theorem isObjectLike_never : h.isObjectLike "never" = false := by
  rw [isObjectLike_word (by decide) (by decide)]
  decide

theorem Absolute.eq_mixed (ha : h.Absolute) (hm : h.IsMember m) (hx : "mixed" ∈ h.closure m) :
    m = ["mixed"] :=
  ha.eq_singleton_of_closure hm hx (by decide) isObjectLike_mixed

theorem Absolute.eq_never (ha : h.Absolute) (hm : h.IsMember m) (hx : "never" ∈ h.closure m) :
    m = ["never"] :=
  ha.eq_singleton_of_closure hm hx (by decide) isObjectLike_never

def Below (h : Hierarchy) (m w : Member) : Prop :=
  w = ["mixed"] ∨ m = ["never"] ∨ w ⊆ h.closure m

theorem subset_closure : m ⊆ h.closure m :=
  fun a ha => mem_closure.mpr ⟨a, ha, has_self h a⟩

theorem below_refl (h : Hierarchy) (m : Member) : h.Below m m :=
  Or.inr (Or.inr subset_closure)

theorem closure_mixed : h.closure ["mixed"] = ["mixed"] := by
  simp [closure, superTypes_word (a := "mixed") (by decide) (by decide), wordParents, List.lookup_cons]

theorem Absolute.below_trans (ha : h.Absolute) (hm : h.IsMember m) (hw : h.IsMember w)
    (h₁ : h.Below m n) (h₂ : h.Below n w) : h.Below m w := by
  rcases h₂ with rfl | rfl | hnw
  · exact Or.inl rfl
  · rcases h₁ with hc | rfl | hmn
    · simp at hc
    · exact Or.inr (Or.inl rfl)
    · exact Or.inr (Or.inl (ha.eq_never hm (hmn (by simp))))
  · rcases h₁ with rfl | rfl | hmn
    · rw [closure_mixed] at hnw
      obtain ⟨a, haw⟩ := List.exists_mem_of_ne_nil w hw.nonempty
      obtain rfl : a = "mixed" := by simpa using hnw haw
      exact Or.inl (ha.eq_mixed hw (subset_closure haw))
    · exact Or.inr (Or.inl rfl)
    · exact Or.inr (Or.inr (List.Subset.trans hnw (ha.closure_subset hm.atoms hmn)))

theorem not_implied_singleton : ¬Implied [w] m := by
  rintro (⟨h₁, h₂⟩ | ⟨h₁, h₂, -⟩ | ⟨h₁, h₂⟩)
  all_goals
    have he := (List.mem_singleton.mp h₁).trans (List.mem_singleton.mp h₂).symm
    revert he
    decide

theorem covers_iff : h.covers ms m = true ↔ ∃ w ∈ ms, w ⊆ h.closure m := by
  simp only [covers, List.any_eq_true, List.all_eq_true, List.contains_iff_mem]
  rfl

/-- A single wide member covers nothing but what lies within it. -/
theorem exists_mem_widen_singleton {l : List String} : (∃ n ∈ widen [w], n ⊆ l) ↔ w ⊆ l := by
  constructor
  · rintro ⟨n, hn, hsub⟩
    rcases mem_widen.mp hn with hn | hi
    · exact List.mem_singleton.mp hn ▸ hsub
    · exact (not_implied_singleton hi).elim
  · exact fun hsub => ⟨w, mem_widen.mpr (Or.inl (by simp)), hsub⟩

theorem fits_singleton : h.fits ⟨[w]⟩ ⟨[m]⟩ = true ↔ h.Below m w := by
  have hc : h.covers (widen [w]) m = true ↔ w ⊆ h.closure m :=
    covers_iff.trans exists_mem_widen_singleton
  simp only [fits, List.all_cons, List.all_nil, Bool.and_true, Bool.or_eq_true, beq_iff_eq, hc, Below,
    DocType.mixed, DocType.never, DocType.atom, DocType.mk.injEq, List.cons.injEq, and_true, or_assoc]

theorem dropNarrower_sublist (h : Hierarchy) (rest kept : List Member) :
    (h.dropNarrower rest kept).Sublist kept := by
  induction rest generalizing kept with
  | nil => exact List.Sublist.refl _
  | cons z rest ih =>
    rw [dropNarrower]
    split
    · exact (ih _).trans List.filter_sublist
    · exact ih _

/-- What is kept is not below anything else that is kept. -/
theorem eq_of_mem_dropNarrower (hx : m ∈ h.dropNarrower rest kept)
    (hy : y ∈ h.dropNarrower rest kept) (hr : y ∈ rest) (hb : h.Below m y) : m = y := by
  induction rest generalizing kept with
  | nil => simp at hr
  | cons z rest ih =>
    rw [dropNarrower] at hx hy
    split at hx
    · next hz =>
      rw [if_pos hz] at hy
      rcases List.mem_cons.mp hr with rfl | hr
      · have hm := (List.mem_filter.mp ((dropNarrower_sublist h _ _).subset hx)).2
        simpa [fits_singleton.mpr hb] using hm
      · exact ih hx hy hr
    · next hz =>
      rw [if_neg hz] at hy
      rcases List.mem_cons.mp hr with rfl | hr
      · have hk : y ∈ kept := (dropNarrower_sublist h _ _).subset hy
        simp [hk] at hz
      · exact ih hx hy hr

/-- Something above each member is kept. -/
theorem Absolute.exists_above (ha : h.Absolute) (rest : List Member)
    (hk : ∀ k ∈ kept, h.IsMember k) (hm : m ∈ kept) :
    ∃ y ∈ h.dropNarrower rest kept, h.Below m y := by
  induction rest generalizing kept m with
  | nil => exact ⟨m, hm, below_refl h m⟩
  | cons z rest ih =>
    rw [dropNarrower]
    split
    · next hz =>
      have hk' : ∀ k ∈ kept.filter fun m => m == z || !h.fits ⟨[z]⟩ ⟨[m]⟩, h.IsMember k :=
        fun k hkf => hk k ((List.mem_filter.mp hkf).1)
      by_cases hb : h.Below m z
      · have hzk : z ∈ kept := by simpa using hz
        obtain ⟨y, hy, hzy⟩ := ih (m := z) hk' (List.mem_filter.mpr ⟨hzk, by simp⟩)
        have hyk : y ∈ kept := (List.mem_filter.mp ((dropNarrower_sublist h _ _).subset hy)).1
        exact ⟨y, hy, ha.below_trans (hk m hm) (hk y hyk) hb hzy⟩
      · have hf : h.fits ⟨[z]⟩ ⟨[m]⟩ = false := by simpa using mt fits_singleton.mp hb
        exact ih hk' (List.mem_filter.mpr ⟨hm, by simp [hf]⟩)
    · exact ih hk hm

/-- Of members that are below each other the first one is kept. -/
theorem Absolute.le_of_mem_dropNarrower (ha : h.Absolute) (hk : ∀ k ∈ kept, h.IsMember k)
    (hs : rest.Pairwise fun m n => m.text ≤ n.text) (hx : m ∈ h.dropNarrower rest kept)
    (hr : y ∈ rest) (hy : y ∈ kept) (hb : h.Below m y) : m.text ≤ y.text := by
  induction rest generalizing kept with
  | nil => simp at hr
  | cons z rest ih =>
    obtain ⟨hz, hs⟩ := List.pairwise_cons.mp hs
    have hmk : m ∈ kept := (dropNarrower_sublist h _ _).subset hx
    rw [dropNarrower] at hx
    split at hx
    · next hzk =>
      have hzk : z ∈ kept := by simpa using hzk
      have hone : h.Below m z → m = z := by
        intro hmz
        have hm := (List.mem_filter.mp ((dropNarrower_sublist h _ _).subset hx)).2
        simpa [fits_singleton.mpr hmz] using hm
      rcases List.mem_cons.mp hr with rfl | hr
      · exact hone hb ▸ String.le_refl _
      · by_cases hyz : h.Below y z
        · have hmz := hone (ha.below_trans (hk m hmk) (hk z hzk) hb hyz)
          exact hmz ▸ hz y hr
        · have hf : h.fits ⟨[z]⟩ ⟨[y]⟩ = false := by simpa using mt fits_singleton.mp hyz
          exact ih (fun k hkf => hk k ((List.mem_filter.mp hkf).1)) hs hx hr
            (List.mem_filter.mpr ⟨hy, by simp [hf]⟩)
    · next hzk =>
      rcases List.mem_cons.mp hr with rfl | hr
      · simp [hy] at hzk
      · exact ih hk hs hx hr hy

/-- Of several members in strict order some are left without one of them. -/
theorem filter_ne_nil_of_sorted (hs : Member.Sorted ms) (hne : ms ≠ []) (hone : ∀ n, ms ≠ [n]) :
    ms.filter (· ≠ m) ≠ [] := by
  match ms, hne, hone, hs with
  | [n], _, hone, _ => exact (hone n rfl).elim
  | n :: k :: rest, _, _, hs =>
    have hlt : n.text < k.text := (List.pairwise_cons.mp hs).1 k (by simp)
    intro hnil
    have hall : ∀ x ∈ n :: k :: rest, x = m := by simpa [List.filter_eq_nil_iff] using hnil
    rw [hall n (by simp), hall k (by simp)] at hlt
    exact String.lt_irrefl _ hlt

theorem arrange_ne_nil (hne : ms ≠ []) : Member.arrange ms ≠ [] := by
  obtain ⟨m, hm⟩ := List.exists_mem_of_ne_nil ms hne
  exact List.ne_nil_of_mem (Member.mem_arrange.mpr hm)

/-- A member that a union keeps: whatever it is below is below it, and stands no earlier. -/
def Keeps (h : Hierarchy) (ms : List Member) (m : Member) : Prop :=
  m ∈ ms ∧ ∀ y ∈ ms, h.Below m y → h.Below y m ∧ m.text ≤ y.text

structure Selected (h : Hierarchy) (ms R : List Member) : Prop where
  sorted : Member.Sorted R
  mem_iff : ∀ m, m ∈ R ↔ h.Keeps ms m
  above : ∀ m ∈ ms, ∃ y ∈ R, h.Below m y

theorem selected_singleton (hall : ∀ y ∈ ms, y = m) (hm : m ∈ ms) : h.Selected ms [m] where
  sorted := List.pairwise_singleton _ _
  mem_iff := by
    intro n
    rw [List.mem_singleton]
    constructor
    · rintro rfl
      refine ⟨hm, fun y hy _ => ?_⟩
      rw [hall y hy]
      exact ⟨below_refl h n, String.le_refl _⟩
    · exact fun hn => hall n hn.1
  above := fun y hy => ⟨m, by simp, hall y hy ▸ below_refl h m⟩

theorem Absolute.below_mixed_left (ha : h.Absolute) (hm : h.IsMember m)
    (hb : h.Below ["mixed"] m) : m = ["mixed"] := by
  rcases hb with rfl | hc | hsub
  · rfl
  · simp at hc
  · obtain ⟨a, ham⟩ := List.exists_mem_of_ne_nil m hm.nonempty
    obtain rfl : a = "mixed" := by simpa [closure_mixed] using hsub ham
    exact ha.eq_mixed hm (subset_closure ham)

theorem Absolute.below_never (ha : h.Absolute) (hm : h.IsMember m) (hb : h.Below m ["never"]) :
    m = ["never"] := by
  rcases hb with hc | rfl | hsub
  · simp at hc
  · rfl
  · exact ha.eq_never hm (hsub (by simp))

theorem Absolute.selected_mixed (ha : h.Absolute) (hms : ∀ m ∈ ms, h.IsMember m)
    (hm : ["mixed"] ∈ ms) : h.Selected ms [["mixed"]] where
  sorted := List.pairwise_singleton _ _
  mem_iff := by
    intro n
    rw [List.mem_singleton]
    constructor
    · rintro rfl
      refine ⟨hm, fun y hy hb => ?_⟩
      rw [ha.below_mixed_left (hms y hy) hb]
      exact ⟨below_refl h _, String.le_refl _⟩
    · rintro ⟨hn, hall⟩
      exact ha.below_mixed_left (hms n hn) (hall _ hm (Or.inl rfl)).1
  above := fun y _ => ⟨_, List.mem_singleton_self _, Or.inl rfl⟩

/-- Dropping narrower members from a list in strict order with some member but `never`. -/
theorem Absolute.selected_dropNarrower (ha : h.Absolute) (hms : ∀ m ∈ ms, h.IsMember m)
    (hs : Member.Sorted kept) (hk : ∀ m, m ∈ kept ↔ m ∈ ms ∧ m ≠ ["never"]) (hne : kept ≠ []) :
    h.Selected ms (h.dropNarrower kept kept) := by
  have hkm : ∀ k ∈ kept, h.IsMember k := fun k hkk => hms k ((hk k).mp hkk).1
  have hsub : ∀ {m}, m ∈ h.dropNarrower kept kept → m ∈ kept := fun hm =>
    (dropNarrower_sublist h _ _).subset hm
  have hle : kept.Pairwise fun m n => m.text ≤ n.text :=
    hs.imp fun hlt => String.not_lt.mp (String.lt_asymm hlt)
  obtain ⟨k, hkk⟩ := List.exists_mem_of_ne_nil kept hne
  refine ⟨hs.sublist (dropNarrower_sublist h _ _), fun m => ⟨fun hm => ?_, ?_⟩, fun m hm => ?_⟩
  · obtain ⟨hmm, hmn⟩ := (hk m).mp (hsub hm)
    refine ⟨hmm, fun y hy hb => ?_⟩
    have hyk : y ∈ kept := by
      refine (hk y).mpr ⟨hy, ?_⟩
      rintro rfl
      exact hmn (ha.below_never (hms m hmm) hb)
    obtain ⟨z, hz, hyz⟩ := ha.exists_above kept hkm hyk
    have hmz := eq_of_mem_dropNarrower hm hz (hsub hz)
      (ha.below_trans (hms m hmm) (hkm z (hsub hz)) hb hyz)
    exact ⟨hmz ▸ hyz, ha.le_of_mem_dropNarrower hkm hle hm hyk hyk hb⟩
  · rintro ⟨hmm, hall⟩
    have hmk : m ∈ kept := by
      refine (hk m).mpr ⟨hmm, ?_⟩
      rintro rfl
      obtain ⟨hkms, hkn⟩ := (hk k).mp hkk
      exact hkn (ha.below_never (hms k hkms) (hall k hkms (Or.inr (Or.inl rfl))).1)
    obtain ⟨z, hz, hmz⟩ := ha.exists_above kept hkm hmk
    obtain ⟨hzm, hlez⟩ := hall z ((hk z).mp (hsub hz)).1 hmz
    have hlem := ha.le_of_mem_dropNarrower hkm hle hz hmk hmk hzm
    have he := Member.eq_of_text_eq (hkm m hmk).toIsPlain (hkm z (hsub hz)).toIsPlain
      (String.le_antisymm hlez hlem)
    exact he ▸ hz
  · by_cases hn : m = ["never"]
    · obtain ⟨z, hz, -⟩ := ha.exists_above kept hkm hkk
      exact ⟨z, hz, Or.inr (Or.inl hn)⟩
    · exact ha.exists_above kept hkm ((hk m).mpr ⟨hm, hn⟩)

/-- A union selects from its members those that it keeps. -/
theorem Absolute.selected_union (ha : h.Absolute) (hms : ∀ m ∈ ms, h.IsMember m) (hne : ms ≠ []) :
    h.Selected ms (h.union ms).members := by
  have hs : Member.Sorted (Member.arrange ms) :=
    Member.sorted_arrange fun m hm => (hms m hm).toIsPlain
  unfold union
  split
  · next m he =>
    have hall : ∀ y, y ∈ ms ↔ y = m := fun y => by rw [← Member.mem_arrange, he, List.mem_singleton]
    exact selected_singleton (fun y hy => (hall y).mp hy) ((hall m).mpr rfl)
  · next hsingle =>
    split
    · next hm => exact ha.selected_mixed hms (Member.mem_arrange.mp (by simpa using hm))
    · refine ha.selected_dropNarrower hms (hs.filter _) (fun m => ?_)
        (filter_ne_nil_of_sorted hs (arrange_ne_nil hne) hsingle)
      simp [Member.mem_arrange]

end PhpDoc.Hierarchy
