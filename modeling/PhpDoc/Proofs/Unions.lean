import PhpDoc.Proofs.Intersections
import PhpDoc.Proofs.Transitivity
/-!
Unions as closures and as bounds. A union selects from its members, so that it does not matter which
members were united before others joined them, and what is as wide as all members is as wide as the
union.
-/
namespace PhpDoc.Hierarchy
variable {h : Hierarchy} {m n : Member} {ms ns rs : List Member} {a b t w : DocType}

/-- A list of members is selected in one way only. -/
theorem Selected.unique (hr : h.Selected ms rs) {ss : List Member} (hs : h.Selected ns ss)
    (hk : ∀ m, h.Keeps ms m ↔ h.Keeps ns m) : rs = ss :=
  hr.sorted.eq_of_mem_iff hs.sorted fun m => by rw [hr.mem_iff, hs.mem_iff, hk]

theorem Selected.subset (hs : h.Selected ms rs) : rs ⊆ ms :=
  fun r hr => ((hs.mem_iff r).mp hr).1

theorem Selected.append_subset (hs : h.Selected ms rs) (ns : List Member) : rs ++ ns ⊆ ms ++ ns :=
  List.append_subset.mpr
    ⟨List.Subset.trans hs.subset (List.subset_append_left ms ns), List.subset_append_right ms ns⟩

theorem Keeps.left (hm : h.Keeps (ms ++ ns) m) (hms : m ∈ ms) : h.Keeps ms m :=
  ⟨hms, fun y hy => hm.2 y (List.mem_append_left _ hy)⟩

/-- What is kept of selected members and others is kept of all members. -/
theorem Absolute.keeps_append (ha : h.Absolute) (hms : ∀ m ∈ ms ++ ns, h.IsMember m)
    (hsel : h.Selected ms rs) : h.Keeps (rs ++ ns) m ↔ h.Keeps (ms ++ ns) m := by
  have hsub := hsel.append_subset ns
  constructor
  · rintro ⟨hm, hall⟩
    refine ⟨hsub hm, fun y hy hmy => ?_⟩
    rcases List.mem_append.mp hy with hyms | hyns
    · -- of the members in the place of `y` the selected one stands first
      obtain ⟨r, hr, hyr⟩ := hsel.above y hyms
      have hrs : r ∈ rs ++ ns := List.mem_append_left ns hr
      have hmm := hms m (hsub hm)
      have hrm := hms r (hsub hrs)
      obtain ⟨hback, hle⟩ := hall r hrs (ha.below_trans hmm hrm hmy hyr)
      have hry : h.Below r y := ha.below_trans hrm (hms y hy) hback hmy
      exact ⟨ha.below_trans (hms y hy) hmm hyr hback,
        String.le_trans hle (((hsel.mem_iff r).mp hr).2 y hyms hry).2⟩
    · exact hall y (List.mem_append_right rs hyns) hmy
  · intro hm
    refine ⟨?_, fun y hy => hm.2 y (hsub hy)⟩
    rcases List.mem_append.mp hm.1 with hmms | hmns
    · exact List.mem_append_left ns ((hsel.mem_iff m).mpr (hm.left hmms))
    · exact List.mem_append_right rs hmns

theorem Absolute.union_union (ha : h.Absolute) (hms : ∀ m ∈ ms ++ ns, h.IsMember m) (hne : ms ≠ []) :
    h.union ((h.union ms).members ++ ns) = h.union (ms ++ ns) := by
  have hsel := ha.selected_union (fun m hm => hms m (List.mem_append_left ns hm)) hne
  obtain ⟨m, hm⟩ := List.exists_mem_of_ne_nil ms hne
  obtain ⟨r, hr, -⟩ := hsel.above m hm
  have hrs : ∀ m ∈ (h.union ms).members ++ ns, h.IsMember m := fun m hm =>
    hms m (hsel.append_subset ns hm)
  have hleft := ha.selected_union hrs (List.ne_nil_of_mem (List.mem_append_left ns hr))
  have hright := ha.selected_union hms (List.ne_nil_of_mem (List.mem_append_left ns hm))
  exact congrArg DocType.mk (hleft.unique hright fun m => ha.keeps_append hms hsel)

/-- A type is wider than what is below one of its members. -/
theorem Canonical.fits_of_below (ht : h.Canonical t) (hn : n ∈ t.members) (hmn : h.Below m n) :
    h.fits t ⟨[m]⟩ = true := by
  rw [fits_iff]
  rcases hmn with rfl | rfl | hsub
  · exact .inl (ht.eq_mixed hn)
  · exact .inr (.inl rfl)
  · exact .inr (.inr (by simpa using ⟨n, mem_widen.mpr (.inl hn), hsub⟩))

theorem Absolute.fits_union_of_mem (ha : h.Absolute) (hms : ∀ m ∈ ms, h.IsMember m) (hm : m ∈ ms) :
    h.fits (h.union ms) ⟨[m]⟩ = true := by
  have hne := List.ne_nil_of_mem hm
  obtain ⟨n, hn, hmn⟩ := (ha.selected_union hms hne).above m hm
  exact (canonical_union hms hne).fits_of_below hn hmn

def IsOutputMember (h : Hierarchy) (m : Member) : Prop :=
  ∃ t, Output h t ∧ m ∈ t.members

theorem Absolute.isMember_output (ha : h.Absolute) (hm : h.IsOutputMember m) : h.IsMember m := by
  obtain ⟨t, ht, hmt⟩ := hm
  exact (ha.canonical_output ht).members m hmt

/-- Forming a union is a closure: members that join a union join its members, the union has none but
given members, is wider than each of them, and has none that is narrower than another one. -/
theorem Absolute.union_closure (ha : h.Absolute) (hms : ∀ m ∈ ms, h.IsOutputMember m)
    (hns : ∀ n ∈ ns, h.IsOutputMember n) (hne : ms ≠ []) :
    h.union ((DocType.ofText (h.union ms).text).members ++ ns) = h.union (ms ++ ns) ∧
      (∀ m ∈ (h.union ms).members, m ∈ ms) ∧
      (∀ m ∈ ms, h.fits (h.union ms) ⟨[m]⟩ = true) ∧
      ∀ m ∈ (h.union ms).members, ∀ n ∈ (h.union ms).members, m ≠ n →
        h.fits ⟨[m]⟩ ⟨[n]⟩ = false := by
  have hall : ∀ m ∈ ms ++ ns, h.IsMember m := fun m hm =>
    ha.isMember_output ((List.mem_append.mp hm).elim (hms m) (hns m))
  have hmem : ∀ m ∈ ms, h.IsMember m := fun m hm => hall m (List.mem_append_left ns hm)
  have hc := canonical_union hmem hne
  refine ⟨?_, (ha.selected_union hmem hne).subset, fun m => ha.fits_union_of_mem hmem,
    fun m hm n hn hmn => ?_⟩
  · rw [DocType.ofText_text hc.nonempty fun m hm => (hc.members m hm).toIsPlain]
    exact ha.union_union hall hne
  · refine Bool.eq_false_iff.mpr fun hf => hmn ?_
    exact (hc.irredundant n hn m hm (fits_singleton.mp hf)).symm

/-- Of classes that inherit from each other a union has the one whose name comes first. -/
theorem union_closure_cycle :
    cycle.Absolute ∧ [["\\B"], ["\\A"], ["never"]] ≠ [] ∧
      cycle.union ((DocType.ofText (cycle.union [["\\B"], ["\\A"], ["never"]]).text).members ++
        [["\\C"], ["array"]]) = cycle.union [["\\B"], ["\\A"], ["never"], ["\\C"], ["array"]] ∧
      cycle.union [["\\B"], ["\\A"], ["never"], ["\\C"], ["array"]] = .ofText "\\A|array" := by
  have hms : ∀ m ∈ [["\\B"], ["\\A"], ["never"]], cycle.IsOutputMember m := by
    have hb : Output cycle (.ofText "\\B") := Output.ofText "\\B" (by decide +kernel)
    have ha : Output cycle (.ofText "\\A|null") := Output.ofText "?\\A" (by decide +kernel)
    have hn : Output cycle .never := Output.ofText "never" (by decide +kernel)
    simp only [List.forall_mem_cons, List.not_mem_nil, false_imp_iff, implies_true, and_true]
    exact ⟨⟨_, hb, by decide +kernel⟩, ⟨_, ha, by decide +kernel⟩, ⟨_, hn, by decide +kernel⟩⟩
  have hns : ∀ n ∈ [["\\C"], ["array"]], cycle.IsOutputMember n := by
    have hc : Output cycle (.ofText "\\C|array") :=
      Output.ofText "int[]|\\C" (by decide +kernel)
    simp only [List.forall_mem_cons, List.not_mem_nil, false_imp_iff, implies_true, and_true]
    exact ⟨⟨_, hc, by decide +kernel⟩, ⟨_, hc, by decide +kernel⟩⟩
  have hclosure := cycle_absolute.union_closure hms hns (by simp)
  exact ⟨cycle_absolute, by simp, hclosure.1, by decide +kernel⟩

theorem Canonical.fits_iff_forall (ht : h.Canonical t) :
    h.fits w t = true ↔ ∀ m ∈ t.members, h.fits w ⟨[m]⟩ = true := by
  simp only [fits_iff, List.forall_mem_singleton]
  constructor
  · rintro (hw | rfl | hall) m hm
    · exact .inl hw
    · exact .inr (.inl (by rw [List.mem_singleton.mp hm]; rfl))
    · exact .inr (.inr (hall m hm))
  · intro hall
    by_cases hw : w = .mixed
    · exact .inl hw
    by_cases hn : ["never"] ∈ t.members
    · exact .inr (.inl (ht.eq_never hn))
    refine .inr (.inr fun m hm => ?_)
    refine ((hall m hm).resolve_left hw).resolve_left fun hne => hn ?_
    obtain rfl : m = ["never"] := by simpa [DocType.never, DocType.atom] using hne
    exact hm

/-- What is narrower than a member is narrower than a type that the member is narrower than. -/
theorem Absolute.fits_below (ha : h.Absolute) (hw : h.Canonical w) (hm : h.IsMember m)
    (hmn : h.Below m n) (hf : h.fits w ⟨[n]⟩ = true) : h.fits w ⟨[m]⟩ = true := by
  simp only [fits_iff, List.forall_mem_singleton] at hf ⊢
  rcases hf with hf | hn | ⟨y, hy, hyn⟩
  · exact .inl hf
  · obtain rfl : n = ["never"] := by simpa [DocType.never, DocType.atom] using hn
    rw [ha.below_never hm hmn]
    exact .inr (.inl rfl)
  · rcases hmn with rfl | rfl | hsub
    · -- only `mixed` is as wide as `mixed`
      rw [closure_mixed] at hyn
      obtain rfl := (isMember_widen hw.members hy).eq_of_subset_singleton hyn
      exact .inl (hw.eq_mixed (mem_of_mem_widen hy (by decide) (by decide) (by decide)))
    · exact .inr (.inl rfl)
    · exact .inr (.inr ⟨y, hy, List.Subset.trans hyn (ha.closure_subset hm.atoms hsub)⟩)

/-- A type is as wide as a union exactly if it is as wide as each of the united members. -/
theorem Absolute.fits_union_iff_forall (ha : h.Absolute) (hw : h.Canonical w)
    (hms : ∀ m ∈ ms, h.IsMember m) (hne : ms ≠ []) :
    h.fits w (h.union ms) = true ↔ ∀ m ∈ ms, h.fits w ⟨[m]⟩ = true := by
  have hsel := ha.selected_union hms hne
  rw [(canonical_union hms hne).fits_iff_forall]
  refine ⟨fun hall m hm => ?_, fun hall m hm => hall m (hsel.subset hm)⟩
  obtain ⟨y, hy, hmy⟩ := hsel.above m hm
  exact ha.fits_below hw (hms m hm) hmy (hall y hy)

/-- A union is the least of the types that are as wide as both its parts. -/
theorem Absolute.fits_union_iff (ha : h.Absolute) (hw : Output h w) (hoa : Output h a)
    (hob : Output h b) : h.fits w (h.union (a.members ++ b.members)) = true ↔
      h.fits w a = true ∧ h.fits w b = true := by
  have hcw := ha.canonical_output hw
  have hca := ha.canonical_output hoa
  have hcb := ha.canonical_output hob
  rw [ha.fits_union_iff_forall hcw
      (List.forall_mem_append.mpr ⟨hca.members, hcb.members⟩) (by simp [hca.nonempty]),
    List.forall_mem_append, hca.fits_iff_forall, hcb.fits_iff_forall]

/-- A class is as wide as both classes that inherit from it, also if it inherits from one of them. -/
theorem fits_union_cycle :
    cycle.Absolute ∧ Output cycle (.ofText "\\B|null") ∧ Output cycle (.ofText "\\A|null") ∧
      Output cycle (.ofText "\\C") ∧
      (cycle.fits (.ofText "\\B|null") (.ofText "\\A|null") = true ∧
        cycle.fits (.ofText "\\B|null") (.ofText "\\C") = true) ∧
      cycle.fits (.ofText "\\B|null") (cycle.union
        ((DocType.ofText "\\A|null").members ++ (DocType.ofText "\\C").members)) = true := by
  have hw : Output cycle (.ofText "\\B|null") := Output.ofText "?\\B" (by decide +kernel)
  have ha : Output cycle (.ofText "\\A|null") := Output.ofText "?\\A" (by decide +kernel)
  have hc : Output cycle (.ofText "\\C") := Output.ofText "\\C" (by decide +kernel)
  have hboth : cycle.fits (.ofText "\\B|null") (.ofText "\\A|null") = true ∧
      cycle.fits (.ofText "\\B|null") (.ofText "\\C") = true := by decide +kernel
  exact ⟨cycle_absolute, hw, ha, hc, hboth, (cycle_absolute.fits_union_iff hw ha hc).mpr hboth⟩

end PhpDoc.Hierarchy
