import PhpDoc.Proofs.AttachedGrammar
import PhpDoc.Proofs.Transitivity
/-!
Constants of types. A constant is read off a type whose text has `object` among its supertypes. The
supertypes are those of an atom: the text of a union is taken for one, and only its beginning counts.
So a type for which a template stands may have members that are no objects.
-/
namespace PhpDoc

namespace Hierarchy
variable {h : Hierarchy} {a s : String} {t : DocType}

def BeginsClass (s : String) : Prop :=
  IsAbsolute s ∨ Text.beginsWith "static(" s = true

def scopeWords : List String :=
  ["static", "self", "parent"]

theorem wordParents_object : ∀ r ∈ wordParents, "object" ∈ r.2 → r.1 ∈ scopeWords := by
  decide

theorem object_mem_scopeWords : ∀ w ∈ scopeWords, "object" ∈ (wordParents.lookup w).getD [] := by
  decide

theorem object_mem_lookup : "object" ∈ (wordParents.lookup a).getD [] ↔ a ∈ scopeWords := by
  refine ⟨fun ho => ?_, object_mem_scopeWords a⟩
  obtain ⟨ps, hp, ho⟩ := mem_wordParents ho
  exact wordParents_object _ hp ho

theorem mem_walk_of_mem {rows : List (String × List String)} {beyond : String → List String}
    {queue seen supers : List String} (hs : s ∈ supers) : s ∈ walk rows beyond queue seen supers := by
  obtain ⟨_, _, hx⟩ := mem_walk rows beyond queue seen supers
  exact (hx s).mpr (.inl hs)

/-- Whatever begins like a class is an object, whatever follows. -/
theorem object_mem_of_beginsClass (hb : BeginsClass s) : "object" ∈ h.superTypes s := by
  rcases hb with hb | hb
  · rw [superTypes, superTypesTo_name _ _ hb]
    exact mem_walk_of_mem (by simp)
  · have hsign : '(' ∈ s.toList := by
      have hpre : ("static(" : String).toList <+: s.toList := by
        simpa [Text.beginsWith] using hb
      exact hpre.subset (by decide)
    rw [superTypes, superTypesTo, wordParents_lookup_eq_none (.inr hsign)]
    simp only [hb, if_true]
    exact mem_walk_of_mem (by simp [mem_adjoin])

theorem object_mem_superTypes : "object" ∈ h.superTypes s ↔ BeginsClass s ∨ s ∈ scopeWords := by
  by_cases hb : BeginsClass s
  · simp [hb, object_mem_of_beginsClass hb]
  · have hword : IsAbsolute s = False ∧ Text.beginsWith "static(" s = false := by
      simpa [BeginsClass] using hb
    rw [superTypes_word hword.2 (by simp [hword.1]), object_mem_lookup]
    simp [hb]

/-- A type fits `object` if each of its members has an atom that is an object. -/
theorem fits_object : h.fits (.atom "object") t = true ↔
    t = .never ∨ ∀ m ∈ t.members, "object" ∈ h.closure m := by
  have hcover : ∀ m : Member, (∃ w ∈ widen (DocType.atom "object").members, w ⊆ h.closure m) ↔
      "object" ∈ h.closure m := fun m => by
    rw [DocType.atom, exists_mem_widen_singleton]
    simp
  have hmixed : DocType.atom "object" ≠ .mixed := by decide
  simp only [fits_iff, hmixed, hcover, false_or]

theorem fits_object_atom (ho : "object" ∈ h.superTypes a) :
    h.fits (.atom "object") (.atom a) = true := by
  refine fits_object.mpr (.inr fun m hm => ?_)
  obtain rfl : m = [a] := by simpa [DocType.atom] using hm
  exact mem_closure.mpr ⟨a, by simp, .inr ho⟩

/-- A type whose text begins like a class, although one of its members is no object. -/
structure FeignsObject (h : Hierarchy) (t : DocType) : Prop where
  begins : BeginsClass t.text
  other : ∃ m ∈ t.members, "object" ∉ h.closure m

theorem FeignsObject.not_fits (hf : h.FeignsObject t) : h.fits (.atom "object") t = false := by
  refine Bool.eq_false_iff.mpr fun ho => ?_
  obtain ⟨m, hm, hno⟩ := hf.other
  rcases fits_object.mp ho with rfl | hall
  · have hnever : ¬BeginsClass DocType.never.text := by
      unfold BeginsClass
      decide
    exact hnever hf.begins
  · exact hno (hall m hm)

/-- In normal form only unions are taken for objects without being any. -/
theorem Canonical.feignsObject (ht : h.Canonical t) (ho : "object" ∈ h.superTypes t.text)
    (hf : h.fits (.atom "object") t = false) : h.FeignsObject t := by
  refine ⟨(object_mem_superTypes.mp ho).resolve_right fun hw => ?_, ?_⟩
  · have huncut : ∀ w ∈ scopeWords, IsUncut w := by
      unfold IsUncut
      decide
    have hatom : t = .atom t.text := by
      rw [← DocType.ofText_uncut (huncut _ hw)]
      exact (DocType.ofText_text ht.nonempty fun m hm => (ht.members m hm).toIsPlain).symm
    rw [hatom, fits_object_atom ho] at hf
    cases hf
  · have hno := mt fits_object.mpr (Bool.eq_false_iff.mp hf)
    simpa using (not_or.mp hno).2

end Hierarchy

namespace Grammar
open Parse
variable {c : Context} {inner : Nested} {k : Construct} {l : Lexeme} {s s' : Reader} {t : DocType}

/-- A basic type is read up to its suffix first. -/
theorem basic_eq_constantAfter (hl : s.rest.head? = some l) (hk : construct? c.scope l = some k)
    (hr : stem c inner k s = .ok (t, s')) : basic c inner s = constantAfter c t s' := by
  have hstep : basic c inner s = (stem c inner k >>= constantAfter c) s := by
    have hnext : next? s = .ok (some l, s) := by
      rw [← hl]
      rfl
    rw [basic, bind_eq hnext, Option.bind_some, hk]
    rfl
  rw [hstep, bind_eq hr]

/-- The sign before a constant is left where it stands, unless `object` is a supertype. -/
theorem constantAfter_eq_self (hs : s.shows 0 "::" = true) : constantAfter c t s = .ok (t, s) ↔
    "object" ∉ c.hierarchy.superTypes t.text := by
  have hlook : constantAfter c t s =
      (if (s.shows 0 "::" && (c.hierarchy.superTypes t.text).contains "object") = true then
        skip >>= fun _ => constantName >>= fun _ => pure c.unknown else pure t : Parse DocType) s := rfl
  rw [hlook, hs, Bool.true_and]
  split
  · next ho =>
    refine iff_of_false (fun h => ?_) (by simpa using ho)
    have hread : Detaches (fun _ => false) [] 1 0
        (skip >>= fun _ => constantName >>= fun _ => (pure c.unknown : Parse DocType))
        (skip >>= fun _ => constantName >>= fun _ => pure c.unknown) :=
      detaches_skip.bind fun _ => detaches_constantName.bind fun _ => detaches_pure _
    obtain ⟨read, hrest, hlen⟩ := hread.eats s t s h
    have := congrArg List.length hrest
    rw [List.length_append] at this
    omega
  · next ho => exact iff_of_true rfl (by simpa using ho)

end Grammar

namespace Hierarchy
open Grammar (stem basic nested construct? Construct)
variable {c : Context} {k : Construct} {l : Lexeme} {s s' : Reader} {t : DocType} {text : String}

/-- A constant is read off a type that does not fit `object` just where a template stands for the type
and its text begins like a class. -/
theorem Absolute.reads_constant_iff (ha : c.hierarchy.Absolute) (hs : c.scope.IsNamed)
    (hv : ∀ a v, c.scope.templates.get? a = some v → c.hierarchy.Canonical v)
    (hrest : s.rest ⊆ (lex text).lexemes) (hl : s.rest.head? = some l)
    (hk : construct? c.scope l = some k) (depth : Nat)
    (hr : stem c (nested c depth) k s = .ok (t, s')) (hsign : s'.shows 0 "::" = true) :
    basic c (nested c depth) s ≠ .ok (t, s') ∧ c.hierarchy.fits (.atom "object") t = false ↔
      c.hierarchy.FeignsObject t ∧ ∃ name, c.scope.templates.get? name = some t := by
  have hP := Grammar.atomInvariant_plain hs hv
  have hproper : ∀ l ∈ s.rest, l.IsProper := fun l hm => isProper_of_mem_lex (hrest hm)
  rw [Grammar.basic_eq_constantAfter hl hk hr, ne_eq, Grammar.constantAfter_eq_self hsign, not_not]
  constructor
  · rintro ⟨ho, hf⟩
    obtain ⟨⟨a, -, hm⟩ | ⟨name, v, hv', hm⟩, -⟩ :=
      Grammar.yieldsAt_stem hP.ofStem (Grammar.nestedYields (hP.invariant ha) depth) hk
        (hproper l (List.mem_of_mem_head? hl)) s t s' hproper hl hr
    · obtain rfl : t = .atom a := congrArg DocType.mk hm
      have htext : (DocType.atom a).text = a := by
        simp [DocType.text, DocType.atom, Text.glue, Member.text_singleton]
      rw [fits_object_atom (htext ▸ ho)] at hf
      cases hf
    · obtain rfl : t = v := congrArg DocType.mk hm
      exact ⟨(hv name t hv').feignsObject ho hf, name, hv'⟩
  · rintro ⟨hf, -⟩
    exact ⟨object_mem_of_beginsClass hf.begins, hf.not_fits⟩

def templateContext : Context :=
  { scope := { templates := [("T", .ofText "\\Foo|int")] } }

/-- A constant is read off the template, though the type of a number has none. -/
theorem reads_constant_template : templateContext.hierarchy.Absolute ∧
    templateContext.scope.IsNamed ∧
    (∀ a v, templateContext.scope.templates.get? a = some v → Canonical [] v) ∧
    ∃ s s' l, s.rest ⊆ (lex "T::X").lexemes ∧ s.rest.head? = some l ∧
      construct? templateContext.scope l = some .className ∧
      stem templateContext (nested templateContext 1) .className s = .ok (.ofText "\\Foo|int", s') ∧
      s'.shows 0 "::" = true ∧
      basic templateContext (nested templateContext 1) s ≠ .ok (.ofText "\\Foo|int", s') ∧
      templateContext.hierarchy.fits (.atom "object") (.ofText "\\Foo|int") = false := by
  have ha : templateContext.hierarchy.Absolute := by simp [templateContext, Hierarchy.Absolute]
  have hs : templateContext.scope.IsNamed :=
    ⟨.inl rfl, by simp [templateContext, Bindings.get?], by simp [templateContext],
      by simp [templateContext]⟩
  have hv : ∀ a v, templateContext.scope.templates.get? a = some v → Canonical [] v := by
    intro a v hav
    obtain ⟨rfl, rfl⟩ : "T" = a ∧ .ofText "\\Foo|int" = v := by
      simpa [templateContext, eq_comm] using mem_of_lookup hav
    exact ha.canonical_output (Output.ofText "\\Foo|int" (by decide +kernel))
  have hl : (lex "T::X").lexemes.head? = some ⟨.name, 0, "T", false⟩ := by decide +kernel
  have hk : construct? templateContext.scope ⟨.name, 0, "T", false⟩ = some .className := by
    decide +kernel
  have hr : stem templateContext (nested templateContext 1) .className ⟨(lex "T::X").lexemes, []⟩ =
      .ok (.ofText "\\Foo|int", ⟨(lex "T::X").lexemes.tail, []⟩) := by decide +kernel
  have hsign : Reader.shows 0 "::" ⟨(lex "T::X").lexemes.tail, []⟩ = true := by decide +kernel
  have hfeigns : templateContext.hierarchy.FeignsObject (.ofText "\\Foo|int") :=
    ⟨.inl (by decide), ["int"], by decide +kernel, by decide +kernel⟩
  have hsub := List.Subset.refl (lex "T::X").lexemes
  exact ⟨ha, hs, hv, _, _, _, hsub, hl, hk, hr, hsign,
    (ha.reads_constant_iff hs hv hsub hl hk 1 hr hsign).mpr ⟨hfeigns, "T", rfl⟩⟩

/-- The template does not fit `object`, and yet a constant of it is read as a type. -/
theorem not_fits_object_template :
    (TypedTag.read templateContext "T").type = some (.ofText "\\Foo|int") ∧
      (TypedTag.read templateContext "T::X").type = some .never ∧
      templateContext.hierarchy.fits (.atom "object") (.ofText "\\Foo|int") = false := by
  decide +kernel

end Hierarchy
end PhpDoc
