import PhpDoc.Proofs.Closure
import Mathlib.Data.Set.Lattice
/-!
The comparison of types is sound for every reading of types as sets of values that agrees with the
hierarchy: a type that fits another one has no values besides those of the other.
-/
namespace PhpDoc
open Hierarchy

/-- Sets of values for the atoms that agree with a hierarchy. -/
structure Reading (h : Hierarchy) (V : Type*) where
  values : String → Set V
  mixed : values "mixed" = Set.univ
  never : values "never" = ∅
  arrayKey : values "array-key" = values "int" ∪ values "string"
  scalar : values "scalar" = values "array-key" ∪ values "float" ∪ values "bool"
  iterable : values "iterable" = values "array" ∪ values "\\Traversable"
  word : ∀ r ∈ wordParents, ∀ s ∈ r.2, values r.1 ⊆ values s
  object : ∀ n, IsAbsolute n → values n ⊆ values "object"
  parent : ∀ n, IsAbsolute n → ∀ p ∈ listed h.rows n, values n ⊆ values p
  late : ∀ n, IsAbsolute n → values (lateBound n) ⊆ values "static" ∩ values n

namespace Reading
variable {h : Hierarchy} {V : Type*}

def ofMember (R : Reading h V) (m : Member) : Set V :=
  {v | ∀ a ∈ m, v ∈ R.values a}

def ofMembers (R : Reading h V) (ms : List Member) : Set V :=
  {v | ∃ m ∈ ms, v ∈ R.ofMember m}

def ofType (R : Reading h V) (t : DocType) : Set V :=
  R.ofMembers t.members

variable (R : Reading h V) {a b x : String} {m : Member} {ms : List Member} {v : V}

theorem mem_ofMember_singleton : v ∈ R.ofMember [a] ↔ v ∈ R.values a := by
  simp [ofMember]

theorem values_word (hl : x ∈ (wordParents.lookup a).getD []) : R.values a ⊆ R.values x := by
  cases hw : wordParents.lookup a with
  | none => simp [hw] at hl
  | some ps =>
    obtain ⟨l₁, l₂, he, -⟩ := List.lookup_eq_some_iff.mp hw
    exact R.word (a, ps) (by simp [he]) x (by simpa [hw] using hl)

theorem values_ancestor (ha : h.Absolute) (hx : h.Ancestor a x) : R.values a ⊆ R.values x := by
  induction hx with
  | single hp => exact R.parent a (ha.of_listed hp).1 _ hp
  | tail _ hp ih => exact ih.trans (R.parent _ (ha.of_listed hp).1 _ hp)

theorem values_static (hx : x ∈ ["static", "self", "parent", "object"]) :
    R.values "static" ⊆ R.values x := by
  rcases List.mem_cons.mp hx with rfl | hx
  · exact subset_rfl
  · exact R.values_word (by simpa [wordParents, List.lookup_cons] using hx)

/-- The values of an atom are values of its supertypes. -/
theorem values_subset (ha : h.Absolute) (hf : IsAtom a) (hx : h.Has a x) :
    R.values a ⊆ R.values x := by
  rcases hx with rfl | hx
  · exact subset_rfl
  cases hf with
  | word _ hc =>
    obtain ⟨hs, hn⟩ := not_open_of_word hc
    rw [superTypes_word hs hn] at hx
    exact R.values_word hx
  | name _ hn =>
    rcases (ha.mem_superTypes_name hn).mp hx with rfl | ⟨-, hup⟩
    · exact R.object a hn
    · exact R.values_ancestor ha hup
  | late n hn =>
    have hstatic : R.values (lateBound n) ⊆ R.values "static" := fun v hv => (R.late n hn hv).1
    have hname : R.values (lateBound n) ⊆ R.values n := fun v hv => (R.late n hn hv).2
    rcases ha.mem_superTypes_late.mp hx with hw | rfl | hup
    · exact hstatic.trans (R.values_static hw)
    · exact hname
    · exact hname.trans (R.values_ancestor ha hup)

/-- A value of an intersection is a value of every type in its closure. -/
theorem mem_values_of_closure (ha : h.Absolute) (hf : ∀ a ∈ m, IsAtom a) (hv : v ∈ R.ofMember m)
    (hx : x ∈ h.closure m) : v ∈ R.values x := by
  obtain ⟨a, hm, hax⟩ := mem_closure.mp hx
  exact R.values_subset ha (hf a hm) hax (hv a hm)

/-- The members that a union implies have no values besides those of the union. -/
theorem ofMember_implied (hi : Implied ms m) (hv : v ∈ R.ofMember m) : v ∈ R.ofMembers ms := by
  have key : ∀ {a}, [a] ∈ ms → v ∈ R.values a → v ∈ R.ofMembers ms := fun hm hv =>
    ⟨_, hm, R.mem_ofMember_singleton.mpr hv⟩
  cases hi with
  | arrayKey hi hs =>
    rw [mem_ofMember_singleton, R.arrayKey] at hv
    exact hv.elim (key hi) (key hs)
  | scalar hb hf hk =>
    rw [mem_ofMember_singleton, R.scalar] at hv
    rcases hv with (hv | hv) | hv
    · rcases hk with hk | ⟨hi, hs⟩
      · exact key hk hv
      · rw [R.arrayKey] at hv
        exact hv.elim (key hi) (key hs)
    · exact key hf hv
    · exact key hb hv
  | iterable ht ha =>
    rw [mem_ofMember_singleton, R.iterable] at hv
    exact hv.elim (key ha) (key ht)

/-- A type that fits another one has no values besides those of the other. -/
theorem ofType_subset_of_fits {wide narrow : DocType} (ha : h.Absolute)
    (hf : ∀ m ∈ narrow.members, ∀ a ∈ m, IsAtom a) (hfit : h.fits wide narrow = true) :
    R.ofType narrow ⊆ R.ofType wide := by
  simp only [fits, Bool.or_eq_true, beq_iff_eq, List.all_eq_true] at hfit
  rcases hfit with (rfl | rfl) | hall
  · intro v _
    exact ⟨["mixed"], by simp [DocType.mixed, DocType.atom], by simp [ofMember, R.mixed]⟩
  · rintro v ⟨m, hm, hv⟩
    have he : m = ["never"] := by simpa [DocType.never, DocType.atom] using hm
    simp [he, ofMember, R.never] at hv
  · rintro v ⟨m, hm, hv⟩
    obtain ⟨w, hw, hwm⟩ := List.any_eq_true.mp (hall m hm)
    have hvw : v ∈ R.ofMember w := by
      intro x hx
      have hc : x ∈ h.closure m := by simpa using List.all_eq_true.mp hwm x hx
      exact R.mem_values_of_closure ha (hf m hm) hv hc
    rcases mem_widen.mp hw with hw | hi
    · exact ⟨w, hw, hvw⟩
    · exact R.ofMember_implied hi hvw

def sampleTypes : Fin 3 → List String
  | 0 => ["int", "array-key", "scalar"]
  | 1 => ["string", "array-key", "scalar"]
  | 2 => ["\\A", "\\Exception", "\\Throwable", "\\Stringable", "object"]

def sampleHierarchy : Hierarchy := [("\\A", ⟨some "\\Exception", []⟩)]

def sampleValues (a : String) : Set (Fin 3) :=
  {v | a = "mixed" ∨ a ∈ sampleTypes v}

theorem sampleValues_subset (hab : ∀ v, a ∈ sampleTypes v → b ∈ sampleTypes v) (ha : a ≠ "mixed") :
    sampleValues a ⊆ sampleValues b := by
  intro v hv
  exact Or.inr (hab v (hv.resolve_left ha))

theorem ne_mixed (ha : IsAbsolute a) : a ≠ "mixed" := by
  rintro rfl
  revert ha
  decide

def sample : Reading sampleHierarchy (Fin 3) where
  values := sampleValues
  mixed := Set.eq_univ_of_forall fun _ => Or.inl rfl
  never := by
    have hno : ∀ v, ¬("never" = "mixed" ∨ "never" ∈ sampleTypes v) := by decide
    exact Set.eq_empty_of_forall_notMem hno
  arrayKey := by
    have hiff : ∀ v, ("array-key" = "mixed" ∨ "array-key" ∈ sampleTypes v) ↔
        ("int" = "mixed" ∨ "int" ∈ sampleTypes v) ∨ ("string" = "mixed" ∨ "string" ∈ sampleTypes v) := by
      decide
    exact Set.ext hiff
  scalar := by
    have hiff : ∀ v, ("scalar" = "mixed" ∨ "scalar" ∈ sampleTypes v) ↔
        (("array-key" = "mixed" ∨ "array-key" ∈ sampleTypes v) ∨
          ("float" = "mixed" ∨ "float" ∈ sampleTypes v)) ∨
          ("bool" = "mixed" ∨ "bool" ∈ sampleTypes v) := by
      decide
    exact Set.ext hiff
  iterable := by
    have hiff : ∀ v, ("iterable" = "mixed" ∨ "iterable" ∈ sampleTypes v) ↔
        ("array" = "mixed" ∨ "array" ∈ sampleTypes v) ∨
          ("\\Traversable" = "mixed" ∨ "\\Traversable" ∈ sampleTypes v) := by
      decide
    exact Set.ext hiff
  word := by
    have hall : ∀ r ∈ wordParents, r.1 ≠ "mixed" ∧
        ∀ s ∈ r.2, ∀ v, r.1 ∈ sampleTypes v → s ∈ sampleTypes v := by
      decide
    exact fun r hr s hs => sampleValues_subset ((hall r hr).2 s hs) (hall r hr).1
  object := by
    have hall : ∀ v, ∀ n ∈ sampleTypes v, IsAbsolute n → "object" ∈ sampleTypes v := by decide
    exact fun n hn => sampleValues_subset (fun v hv => hall v n hv hn) (ne_mixed hn)
  parent := by
    have hall : ∀ v, ∀ n ∈ sampleTypes v, ∀ p ∈ listed (rows sampleHierarchy) n,
        p ∈ sampleTypes v := by
      decide +kernel
    exact fun n hn p hp => sampleValues_subset (fun v hv => hall v n hv p hp) (ne_mixed hn)
  late := by
    have hall : ∀ v, ∀ n ∈ "mixed" :: sampleTypes v, '(' ∉ n.toList := by decide
    intro n _ v hv
    refine (hall v (lateBound n) (List.mem_cons.mpr hv) ?_).elim
    simp [toList_lateBound]

/-- The three values of `array-key|\A` are integers, texts or throwable. -/
theorem ofType_subset_sample :
    sampleHierarchy.Absolute ∧
      (∀ m ∈ (DocType.ofText "array-key|\\A").members, ∀ a ∈ m, IsAtom a) ∧
      sampleHierarchy.fits (.ofText "int|string|\\Throwable") (.ofText "array-key|\\A") = true ∧
      sample.ofType (.ofText "array-key|\\A") ⊆ sample.ofType (.ofText "int|string|\\Throwable") := by
  have ha : sampleHierarchy.Absolute := by
    unfold Absolute
    decide
  have hf : ∀ m ∈ (DocType.ofText "array-key|\\A").members, ∀ a ∈ m, IsAtom a := by
    have he : (DocType.ofText "array-key|\\A").members = [["array-key"], ["\\A"]] := by
      decide +kernel
    rw [he]
    intro m hm a ham
    rcases List.mem_cons.mp hm with rfl | hm
    · exact List.mem_singleton.mp ham ▸ .word _ (by decide)
    · obtain rfl := List.mem_singleton.mp hm
      exact List.mem_singleton.mp ham ▸ .name _ (by decide)
  have hfit : sampleHierarchy.fits (.ofText "int|string|\\Throwable")
      (.ofText "array-key|\\A") = true := by
    decide +kernel
  exact ⟨ha, hf, hfit, sample.ofType_subset_of_fits ha hf hfit⟩

end Reading
end PhpDoc
