import PhpDoc.Proofs.Outputs
import Mathlib.Data.Finset.Dedup
import Mathlib.Order.Preorder.Finite
/-!
What an intersection loses. Tidying drops each atom that is a type of the values of another one,
also if that one is dropped as well: where two classes inherit from each other, both are. Nothing is
lost exactly if below any two such classes there is a third one.
-/
namespace PhpDoc

/-- Atoms with names have a text. -/
theorem Member.IsPlain.text_ne_empty {m : Member} (hm : m.IsPlain) (he : "" ∉ m) :
    m.text ≠ "" := by
  intro htext
  have hempty : Member.ofText "" = [""] := by decide
  rw [← Member.ofText_text hm, htext, hempty] at he
  exact he (by simp)

namespace Hierarchy
variable {h : Hierarchy} {as : List String} {a b k x : String} {m : Member}

abbrev Absolute.atomPreorder (ha : h.Absolute) : Preorder {a : String // IsAtom a} where
  le a b := h.Has a b
  lt a b := h.Has a b ∧ ¬h.Has b a
  le_refl a := has_self h a
  le_trans a _ _ hab hbc := ha.has_trans a.2 hab hbc

/-- Below each atom of a list there is one that is below all those that are below it. -/
theorem Absolute.exists_minimal_below (ha : h.Absolute) (hf : ∀ a ∈ as, IsAtom a) (hb : b ∈ as) :
    ∃ k ∈ as, h.Has k b ∧ ∀ c ∈ as, h.Has c k → h.Has k c := by
  let := ha.atomPreorder
  have hmem : ∀ {c} (hc : c ∈ as), ⟨c, hf c hc⟩ ∈ (as.attachWith IsAtom hf).toFinset := by simp
  obtain ⟨k, hkb, hk, hmin⟩ := Finset.exists_le_minimal _ (hmem hb)
  have hkas : k.1 ∈ as := by simpa using hk
  exact ⟨k, hkas, hkb, fun c hc hck => hmin (hmem hc) hck⟩

theorem has_mixed (hx : h.Has "mixed" x) : x = "mixed" := by
  rcases hx with hx | hx
  · exact hx
  · rw [superTypes_word (by decide) (by decide)] at hx
    cases hx

structure Lowest (h : Hierarchy) (as : List String) (k : String) : Prop where
  mem : k ∈ as
  eq : ∀ b ∈ as, h.Has b k → b = k

/-- Of several atoms the lowest ones are left. -/
theorem Absolute.lowest_iff (ha : h.Absolute) (hf : ∀ a ∈ as, IsAtom a) :
    h.Lowest as k ↔ k ∈ as ∧ ∀ b ∈ as, k ∉ h.superTypes b := by
  constructor
  · rintro ⟨hk, heq⟩
    refine ⟨hk, fun b hb hx => ?_⟩
    obtain rfl := heq b hb (.inr hx)
    exact ha.superTypes_irrefl (hf b hb) hx
  · rintro ⟨hk, hout⟩
    exact ⟨hk, fun b hb hx => (hx.resolve_right (hout b hb)).symm⟩

/-- Below any two atoms that are types of each other's values there is a third one, strictly below
them. -/
def Resolved (h : Hierarchy) (as : List String) : Prop :=
  ∀ a ∈ as, ∀ b ∈ as, a ≠ b → h.Has a b → h.Has b a → ∃ c ∈ as, h.Has c a ∧ ¬h.Has a c

/-- Below each atom there is a lowest one exactly if atoms that are types of each other's values
have another one below them. -/
theorem Absolute.forall_exists_lowest_iff (ha : h.Absolute) (hf : ∀ a ∈ as, IsAtom a) :
    (∀ a ∈ as, ∃ k, h.Lowest as k ∧ h.Has k a) ↔ h.Resolved as := by
  constructor
  · intro hall a haas b hbas hne hab hba
    obtain ⟨k, hk, hka⟩ := hall a haas
    refine ⟨k, hk.mem, hka, fun hak => hne ?_⟩
    obtain rfl := hk.eq a haas hak
    exact (hk.eq b hbas hba).symm
  · intro hres a haas
    obtain ⟨k, hk, hka, hmin⟩ := ha.exists_minimal_below hf haas
    refine ⟨k, ⟨hk, fun b hbas hbk => ?_⟩, hka⟩
    by_contra hne
    obtain ⟨c, hcas, hck, hkc⟩ := hres k hk b hbas (Ne.symm hne) (hmin b hbas hbk) hbk
    exact hkc (hmin c hcas hck)

/-- `mixed` among the atoms makes no difference for the others. -/
theorem lowest_filter (hk : k ≠ "mixed") :
    h.Lowest (as.filter (· ≠ "mixed")) k ↔ h.Lowest as k := by
  constructor
  · rintro ⟨hmem, heq⟩
    refine ⟨(List.mem_filter.mp hmem).1, fun b hb hx => ?_⟩
    by_cases hm : b = "mixed"
    · subst hm
      exact (has_mixed hx).symm
    · exact heq b (List.mem_filter.mpr ⟨hb, by simpa using hm⟩) hx
  · rintro ⟨hmem, heq⟩
    exact ⟨List.mem_filter.mpr ⟨hmem, by simpa using hk⟩,
      fun b hb => heq b (List.mem_filter.mp hb).1⟩

/-- Without `never` an intersection has the lowest of its atoms other than `mixed`, or a nameless
atom if there are none. -/
theorem Absolute.mem_intersection_iff (ha : h.Absolute) (hf : ∀ a ∈ as, IsPlainAtom a)
    (hn : "never" ∉ as) (hone : ∃ a ∈ as, a ≠ "mixed") (hi : h.intersection as = some m) :
    ∃ n : Member, m = (if n = [] then [""] else n) ∧ ∀ k, k ∈ n ↔ h.Lowest as k ∧ k ≠ "mixed" := by
  have hmem : ∀ k, k ∈ as.filter (· ≠ "mixed") ↔ k ∈ as ∧ k ≠ "mixed" := by simp
  have hsub : ∀ b ∈ as.filter (· ≠ "mixed"), IsPlainAtom b := fun b hb => hf b ((hmem b).mp hb).1
  have hlow : ∀ k, h.Lowest (as.filter (· ≠ "mixed")) k ↔ h.Lowest as k ∧ k ≠ "mixed" := by
    intro k
    refine ⟨fun hk => ?_, fun hk => (lowest_filter hk.2).mpr hk.1⟩
    have hne := ((hmem k).mp hk.mem).2
    exact ⟨(lowest_filter hne).mp hk, hne⟩
  simp only [← hlow]
  unfold intersection at hi
  rw [if_neg (by simpa using hn)] at hi
  split at hi
  · next hnone =>
    obtain ⟨a, haas, hne⟩ := hone
    have hin := (hmem a).mpr ⟨haas, hne⟩
    rw [hnone] at hin
    cases hin
  · next a hsingle =>
    refine ⟨[a], (Option.some.inj hi).symm, fun k => ?_⟩
    rw [hsingle]
    refine ⟨fun hk => ⟨hk, fun b hb _ => ?_⟩, fun hk => hk.mem⟩
    exact (List.mem_singleton.mp hb).trans (List.mem_singleton.mp hk).symm
  · obtain ⟨kept, hkept, hout⟩ := Option.map_eq_some_iff.mp hi
    obtain ⟨n, hmet, heq⟩ := met_of_tidyAtoms (fun b hb => (hsub b hb).uncut) hkept
    exact ⟨n, hout.symm.trans heq, fun k =>
      (hmet.mem_iff k).trans (ha.lowest_iff fun b hb => (hsub b hb).isAtom).symm⟩

/-- An atom fits what is left exactly if a lowest atom is below it. -/
theorem fits_lowest_iff {n : Member} (hn : "never" ∉ as) (hne : ∀ a ∈ as, a ≠ "")
    (hmem : ∀ k, k ∈ n ↔ h.Lowest as k ∧ k ≠ "mixed") (haas : a ∈ as) (hm : a ≠ "mixed") :
    h.fits (.atom a) ⟨[if n = [] then [""] else n]⟩ = true ↔ ∃ k, h.Lowest as k ∧ h.Has k a := by
  have hlow : (∃ k, h.Lowest as k ∧ h.Has k a) ↔ ∃ k ∈ n, h.Has k a := by
    refine exists_congr fun k => ⟨fun ⟨hk, hka⟩ => ⟨(hmem k).mpr ⟨hk, ?_⟩, hka⟩,
      fun ⟨hk, hka⟩ => ⟨((hmem k).mp hk).1, hka⟩⟩
    rintro rfl
    exact hm (has_mixed hka)
  rw [hlow, DocType.atom, fits_singleton, Below]
  split
  · -- a nameless atom is below nothing that has a name
    next hnil =>
    subst hnil
    have hnone : h.superTypes "" = [] := superTypes_word (by decide) (by decide)
    simpa [closure, hnone, hm] using hne a haas
  · have hnever : n ≠ ["never"] := by
      rintro rfl
      exact hn ((hmem "never").mp (by simp)).1.mem
    simp [hm, hnever, mem_closure]

/-- An intersection that loses nothing: it has a name, has none but the given atoms, and is narrower
than each of them. -/
structure Lossless (h : Hierarchy) (as : List String) (m : Member) : Prop where
  named : m.text ≠ ""
  subset : m ⊆ as
  narrower : ∀ a ∈ as, a ≠ "mixed" → h.fits (.atom a) ⟨[m]⟩ = true

theorem fits_never (h : Hierarchy) (a : String) : h.fits (.atom a) ⟨[["never"]]⟩ = true :=
  fits_singleton.mpr (.inr (.inl rfl))

theorem lossless_never (hn : "never" ∈ as) : h.Lossless as ["never"] where
  named := by decide
  subset := by simpa using hn
  narrower a _ _ := fits_never h a

theorem lossless_mixed (has : as ≠ []) (hall : ∀ a ∈ as, a = "mixed") :
    h.Lossless as ["mixed"] where
  named := by decide
  subset := by
    obtain ⟨a, haas⟩ := List.exists_mem_of_ne_nil as has
    simpa using hall a haas ▸ haas
  narrower a haas hm := absurd (hall a haas) hm

/-- What is left loses nothing exactly if below each atom there is a lowest one. -/
theorem Absolute.lossless_iff (ha : h.Absolute) (hf : ∀ a ∈ as, IsPlainAtom a)
    (hn : "never" ∉ as) (hne : ∀ a ∈ as, a ≠ "") (hone : ∃ a ∈ as, a ≠ "mixed") {n : Member}
    (hmem : ∀ k, k ∈ n ↔ h.Lowest as k ∧ k ≠ "mixed") :
    h.Lossless as (if n = [] then [""] else n) ↔ ∀ a ∈ as, ∃ k, h.Lowest as k ∧ h.Has k a := by
  have hfits := fun a haas hm => fits_lowest_iff (a := a) hn hne hmem haas hm
  constructor
  · intro hkept a haas
    by_cases hm : a = "mixed"
    · subst hm
      have hlow : ∀ b ∈ as, h.Has b "mixed" → b = "mixed" :=
        fun b hbas hb => ha.eq_of_has (hf b hbas).isAtom hb (by decide)
      exact ⟨"mixed", ⟨haas, hlow⟩, has_self h _⟩
    · exact (hfits a haas hm).mp (hkept.narrower a haas hm)
  · intro hall
    have hnil : n ≠ [] := by
      obtain ⟨a, haas, hm⟩ := hone
      obtain ⟨k, hk, hka⟩ := hall a haas
      refine List.ne_nil_of_mem ((hmem k).mpr ⟨hk, ?_⟩)
      rintro rfl
      exact hm (has_mixed hka)
    have hsub : n ⊆ as := fun k hk => ((hmem k).mp hk).1.mem
    have hplain : n.IsPlain := ⟨hnil, fun k hk => (hf k (hsub hk)).uncut⟩
    refine ⟨?_, ?_, fun a haas hm => (hfits a haas hm).mpr (hall a haas)⟩
    · rw [if_neg hnil]
      exact hplain.text_ne_empty fun hk => hne _ (hsub hk) rfl
    · rw [if_neg hnil]
      exact hsub

/-- What an intersection keeps, whatever classes inherit from each other. It is narrower than one of
its atoms exactly if a lowest one is below that atom, or `never` is among them. It loses nothing
exactly if below any two atoms that are types of each other's values there is a third one, or
`never` is among them. -/
theorem Absolute.intersection_lossless_iff (ha : h.Absolute) (hf : ∀ a ∈ as, IsPlainAtom a)
    (hne : ∀ a ∈ as, a ≠ "") (has : as ≠ []) (hi : h.intersection as = some m) :
    (∀ a ∈ as, a ≠ "mixed" → (h.fits (.atom a) ⟨[m]⟩ = true ↔
      "never" ∈ as ∨ ∃ k, h.Lowest as k ∧ h.Has k a)) ∧
    (h.Lossless as m ↔ "never" ∈ as ∨ h.Resolved as) := by
  by_cases hn : "never" ∈ as
  · obtain rfl := Option.some.inj (hi.symm.trans (if_pos (by simpa using hn)))
    exact ⟨fun a _ _ => iff_of_true (fits_never h a) (.inl hn),
      iff_of_true (lossless_never hn) (.inl hn)⟩
  simp only [hn, false_or]
  by_cases hone : ∃ a ∈ as, a ≠ "mixed"
  · obtain ⟨n, rfl, hmem⟩ := ha.mem_intersection_iff hf hn hone hi
    rw [← ha.forall_exists_lowest_iff fun a haas => (hf a haas).isAtom]
    exact ⟨fun a haas hm => fits_lowest_iff hn hne hmem haas hm,
      ha.lossless_iff hf hn hne hone hmem⟩
  · have hall : ∀ a ∈ as, a = "mixed" := by simpa using hone
    have hfilter : as.filter (· ≠ "mixed") = [] := by simpa using hall
    unfold intersection at hi
    rw [if_neg (by simpa using hn), hfilter] at hi
    obtain rfl := Option.some.inj hi
    refine ⟨fun a haas hm => absurd (hall a haas) hm, iff_of_true (lossless_mixed has hall) ?_⟩
    exact fun a haas b hbas hab => absurd ((hall a haas).trans (hall b hbas).symm) hab

def cycle : Hierarchy := [
  ("\\A", ⟨some "\\B", []⟩),
  ("\\B", ⟨some "\\A", []⟩),
  ("\\C", ⟨some "\\A", []⟩)]

theorem cycle_absolute : cycle.Absolute := by
  unfold Absolute IsAbsolute
  decide

theorem isPlainAtom_cycle : ∀ a ∈ ["\\A", "\\B", "\\C"], IsPlainAtom a := by
  have hall : ∀ a ∈ ["\\A", "\\B", "\\C"], IsUncut a ∧ IsAbsolute a := by
    unfold IsUncut
    decide
  exact fun a ha => ⟨(hall a ha).1, .name a (hall a ha).2⟩

theorem intersection_lossless_cycle :
    cycle.intersection ["\\A", "\\B", "\\C"] = some ["\\C"] ∧
      cycle.Resolved ["\\A", "\\B", "\\C"] ∧
      ∀ a ∈ ["\\A", "\\B", "\\C"], cycle.fits (.atom a) ⟨[["\\C"]]⟩ = true := by
  have hi : cycle.intersection ["\\A", "\\B", "\\C"] = some ["\\C"] := by decide +kernel
  have hres : cycle.Resolved ["\\A", "\\B", "\\C"] := by
    unfold Resolved Has
    decide +kernel
  have hmixed : ∀ a ∈ ["\\A", "\\B", "\\C"], a ≠ "mixed" := by decide
  have hiff := cycle_absolute.intersection_lossless_iff isPlainAtom_cycle (by decide) (by decide) hi
  exact ⟨hi, hres, fun a ha => (hiff.2.mpr (.inr hres)).narrower a ha (hmixed a ha)⟩

/-- Of two classes that inherit from each other nothing is left. -/
theorem not_intersection_lossless : ¬∀ (h : Hierarchy) (as : List String) (m : Member), h.Absolute →
    as ≠ [] → (∀ a ∈ as, IsPlainAtom a ∧ a ≠ "") → h.intersection as = some m →
      h.Lossless as m := by
  intro h
  have hplain : ∀ a ∈ ["\\A", "\\B"], IsPlainAtom a ∧ a ≠ "" := by
    have hin : ∀ a ∈ ["\\A", "\\B"], a ∈ ["\\A", "\\B", "\\C"] ∧ a ≠ "" := by decide
    exact fun a ha => ⟨isPlainAtom_cycle a (hin a ha).1, (hin a ha).2⟩
  have hi : cycle.intersection ["\\A", "\\B"] = some [""] := by decide +kernel
  exact (h cycle _ _ cycle_absolute (by simp) hplain hi).named (by decide)

end Hierarchy
end PhpDoc
