import PhpDoc.Proofs.SuperTypes
/-!
The types of a value. A value of an atom has the atom and its supertypes as types; taking all types
of these adds nothing, also where classes inherit from each other.
-/
namespace PhpDoc
namespace Hierarchy
variable {h : Hierarchy} {a b c x : String} {m w : Member}

def Has (h : Hierarchy) (a x : String) : Prop :=
  x = a ∨ x ∈ h.superTypes a

theorem has_self (h : Hierarchy) (a : String) : h.Has a a :=
  Or.inl rfl

theorem mem_closure : x ∈ h.closure m ↔ ∃ a ∈ m, h.Has a x := by
  simp only [closure, List.mem_append, List.mem_flatMap, Has]
  constructor
  · rintro (hx | ⟨a, ha, hx⟩)
    · exact ⟨x, hx, Or.inl rfl⟩
    · exact ⟨a, ha, Or.inr hx⟩
  · rintro ⟨a, ha, rfl | hx⟩
    · exact Or.inl ha
    · exact Or.inr ⟨a, ha, hx⟩

/-- The words among the supertypes of words have no supertypes but those listed already. -/
theorem wordParents_closed : ∀ r ∈ wordParents, ∀ b ∈ r.2,
    (Text.beginsWith "static(" b = false ∧ ¬IsAbsolute b) ∧
      ∀ x ∈ (wordParents.lookup b).getD [], x ∈ r.2 := by
  decide +kernel

theorem superTypes_open : h.superTypes "object" = [] ∧ h.superTypes "iterable" = [] ∧
    h.superTypes "callable" = [] := by
  refine ⟨?_, ?_, ?_⟩ <;> rw [superTypes_word (by decide) (by decide)] <;> rfl

theorem has_object (hx : h.Has "object" x) : x = "object" := by
  simpa [Has, superTypes_open] using hx

/-- An ancestor of a class is a class, or one of two words without supertypes. -/
theorem Absolute.of_ancestor (ha : h.Absolute) (hx : h.Ancestor b x) :
    IsAbsolute x ∨ h.superTypes x = [] := by
  obtain ⟨p, -, hp⟩ := Relation.TransGen.tail'_iff.mp hx
  rcases (ha.of_listed hp).2 with hn | rfl | rfl
  · exact Or.inl hn
  · exact Or.inr superTypes_open.2.1
  · exact Or.inr superTypes_open.2.2

/-- From an ancestor of a class only `object` and further ancestors can be reached. -/
theorem Absolute.has_of_ancestor (ha : h.Absolute) (hb : h.Ancestor a b) (hx : h.Has b x) :
    x = "object" ∨ h.Ancestor a x := by
  rcases hx with rfl | hx
  · exact Or.inr hb
  · rcases ha.of_ancestor hb with hn | he
    · rw [ha.mem_superTypes_name hn] at hx
      exact hx.imp id fun hx => hb.trans hx.2
    · simp [he] at hx

theorem has_word_trans (hs : Text.beginsWith "static(" a = false) (hn : ¬IsAbsolute a)
    (hb : h.Has a b) (hx : h.Has b x) : h.Has a x := by
  rcases hb with rfl | hb
  · exact hx
  rw [superTypes_word hs hn] at hb
  cases hl : wordParents.lookup a with
  | none => simp [hl] at hb
  | some ps =>
    have hps : b ∈ ps := by simpa [hl] using hb
    obtain ⟨⟨hbs, hbn⟩, hclosed⟩ := wordParents_closed (a, ps) (mem_of_lookup hl) b hps
    have hxs : x ∈ ps := by
      rcases hx with rfl | hx
      · exact hps
      · exact hclosed x (superTypes_word hbs hbn ▸ hx)
    exact Or.inr (by simpa [superTypes_word hs hn, hl] using hxs)

theorem Absolute.has_name_trans (ha : h.Absolute) (hn : IsAbsolute a) (hb : h.Has a b)
    (hx : h.Has b x) : h.Has a x := by
  rcases hb with rfl | hb
  · exact hx
  by_cases he : x = a
  · exact Or.inl he
  refine Or.inr ((ha.mem_superTypes_name hn).mpr ?_)
  rcases (ha.mem_superTypes_name hn).mp hb with rfl | ⟨-, hanc⟩
  · exact Or.inl (has_object hx)
  · exact (ha.has_of_ancestor hanc hx).imp id fun hup => ⟨he, hup⟩

theorem Absolute.has_late_trans (ha : h.Absolute) (hn : IsAbsolute a) (hb : h.Has (lateBound a) b)
    (hx : h.Has b x) : h.Has (lateBound a) x := by
  rcases hb with rfl | hb
  · exact hx
  refine Or.inr (ha.mem_superTypes_late.mpr ?_)
  rcases ha.mem_superTypes_late.mp hb with hw | rfl | hanc
  · have hstatic : h.Has "static" b := by
      rcases List.mem_cons.mp hw with rfl | hw
      · exact has_self h _
      · right
        rw [superTypes_word (by decide) (by decide)]
        simpa [wordParents, List.lookup_cons] using hw
    have hall := has_word_trans (by decide) (by decide) hstatic hx
    left
    rcases hall with rfl | hall
    · simp
    · rw [superTypes_word (by decide) (by decide)] at hall
      simpa [wordParents, List.lookup_cons] using Or.inr hall
  · rcases hx with rfl | hx
    · exact Or.inr (Or.inl rfl)
    · rcases (ha.mem_superTypes_name hn).mp hx with rfl | ⟨-, hup⟩
      · exact Or.inl (by simp)
      · exact Or.inr (Or.inr hup)
  · rcases ha.has_of_ancestor hanc hx with rfl | hup
    · exact Or.inl (by simp)
    · exact Or.inr (Or.inr hup)

theorem not_open_of_word (hc : ∀ c ∈ a.toList, c ≠ '\\' ∧ c ≠ '(' ∧ c ≠ ')') :
    Text.beginsWith "static(" a = false ∧ ¬IsAbsolute a := by
  constructor
  · by_contra hs
    have hpre : ("static(" : String).toList <+: a.toList := by
      simpa [Text.beginsWith] using hs
    exact (hc '(' (hpre.subset (by decide))).2.1 rfl
  · intro hn
    obtain ⟨cs, hcs⟩ := isAbsolute_iff.mp hn
    exact (hc '\\' (by simp [hcs])).1 rfl

/-- What the types of a value have as supertypes are types of the value. -/
theorem Absolute.has_trans (ha : h.Absolute) (hf : IsAtom a) (hb : h.Has a b) (hx : h.Has b x) :
    h.Has a x := by
  cases hf with
  | word _ hc =>
    obtain ⟨hs, hn⟩ := not_open_of_word hc
    exact has_word_trans hs hn hb hx
  | name _ hn => exact ha.has_name_trans hn hb hx
  | late n hn => exact ha.has_late_trans hn hb hx

/-- An intersection of types of a value gives no further types. -/
theorem Absolute.closure_subset (ha : h.Absolute) (hm : ∀ a ∈ m, IsAtom a) (hw : w ⊆ h.closure m) :
    h.closure w ⊆ h.closure m := by
  intro x hx
  obtain ⟨b, hb, hbx⟩ := mem_closure.mp hx
  obtain ⟨a, ham, hab⟩ := mem_closure.mp (hw hb)
  exact mem_closure.mpr ⟨a, ham, ha.has_trans (hm a ham) hab hbx⟩

end Hierarchy

/-- The members that a union implies without listing them. -/
inductive Implied (ms : List Member) : Member → Prop
  | arrayKey (hi : ["int"] ∈ ms) (hs : ["string"] ∈ ms) : Implied ms ["array-key"]
  | scalar (hb : ["bool"] ∈ ms) (hf : ["float"] ∈ ms)
      (hk : ["array-key"] ∈ ms ∨ (["int"] ∈ ms ∧ ["string"] ∈ ms)) : Implied ms ["scalar"]
  | iterable (ht : ["\\Traversable"] ∈ ms) (ha : ["array"] ∈ ms) : Implied ms ["iterable"]

theorem mem_widen {ms : List Member} {w : Member} : w ∈ widen ms ↔ w ∈ ms ∨ Implied ms w := by
  have hmem : ∀ (needed : List Member) (added n : Member) (l : List Member),
      n ∈ (if needed.all l.contains then l ++ [added] else l) ↔
        n ∈ l ∨ (n = added ∧ ∀ k ∈ needed, k ∈ l) := by
    intro needed added n l
    have hb : needed.all l.contains = true ↔ ∀ k ∈ needed, k ∈ l := by simp [List.all_eq_true]
    by_cases hk : ∀ k ∈ needed, k ∈ l
    · rw [if_pos (hb.mpr hk), List.mem_append, List.mem_singleton, and_iff_left hk]
    · rw [if_neg (fun he => hk (hb.mp he))]
      simp [hk]
  simp only [widen, hmem]
  constructor
  · rintro (((hm | ⟨rfl, hk⟩) | ⟨rfl, hk⟩) | ⟨rfl, hk⟩)
    · exact Or.inl hm
    · exact Or.inr (.arrayKey (by simp_all) (by simp_all))
    · exact Or.inr (.scalar (by simp_all) (by simp_all) (by simp_all))
    · exact Or.inr (.iterable (by simp_all) (by simp_all))
  · rintro (hm | ⟨hi, hs⟩ | ⟨hb, hf, hk⟩ | ⟨ht, ha⟩)
    · exact Or.inl (Or.inl (Or.inl hm))
    · exact Or.inl (Or.inl (Or.inr ⟨rfl, by simp_all⟩))
    · exact Or.inl (Or.inr ⟨rfl, by simp_all⟩)
    · exact Or.inr ⟨rfl, by simp_all⟩

end PhpDoc
