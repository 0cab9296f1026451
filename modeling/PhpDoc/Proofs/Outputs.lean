import PhpDoc.Proofs.Canonical
import PhpDoc.Proofs.GrammarInvariant
import PhpDoc.Type.TypedTag
/-!
The types that are read from tags. Each of them is in normal form if the names that the scope knows
are absolute and the templates stand for types in normal form.
-/
namespace PhpDoc
open Hierarchy

structure IsClassName (n : String) : Prop where
  isAbsolute : IsAbsolute n
  uncut : IsUncut n

structure Scope.IsNamed (s : Scope) : Prop where
  nameSpace : s.nameSpace = "" ∨ IsClassName s.nameSpace
  imports : ∀ a n, s.imports.get? a = some n → IsClassName n
  className : ∀ n, s.className = some n → n = "" ∨ IsClassName n
  parentName : ∀ n, s.parentName = some n → n = "" ∨ IsClassName n

/-- The types read from tags in scopes whose templates stand for such types. -/
inductive Output (h : Hierarchy) : DocType → Prop
  | tag (scope : Scope) (wide : Bool) (text : String) (e : Extent) (t : DocType)
      (hn : scope.IsNamed) (hv : ∀ a v, scope.templates.get? a = some v → Output h v)
      (hr : (TypedTag.read ⟨scope, h, wide⟩ text e).type = some t) : Output h t
  | template (scope : Scope) (wide : Bool) (text : String) (t : DocType)
      (hn : scope.IsNamed) (hv : ∀ a v, scope.templates.get? a = some v → Output h v)
      (hr : (TypedTag.readTemplate ⟨scope, h, wide⟩ text).type = some t) : Output h t

variable {h : Hierarchy} {a n s : String} {t : DocType} {c : Context}

/-- Types read at the start of a file, where nothing is declared. -/
theorem Output.ofText (text : String) (hr : (TypedTag.read ⟨{}, h, false⟩ text).type = some t) :
    Output h t := by
  have hn : ({} : Scope).IsNamed :=
    ⟨Or.inl rfl, by simp [Bindings.get?], by simp, by simp⟩
  exact .tag {} false text .type t hn (by simp [Bindings.get?]) hr

theorem IsUncut.append (ha : IsUncut a) (hs : IsUncut s) : IsUncut (a ++ s) := by
  simp only [IsUncut, String.toList_append, List.mem_append, not_or]
  exact ⟨⟨ha.1, hs.1⟩, ha.2, hs.2⟩

theorem IsUncut.of_subset (hs : IsUncut s) (hsub : a.toList ⊆ s.toList) : IsUncut a :=
  ⟨fun hc => hs.1 (hsub hc), fun hc => hs.2 (hsub hc)⟩

theorem IsUncut.dropFirst (hs : IsUncut s) (k : Nat) : IsUncut (Text.dropFirst k s) := by
  refine hs.of_subset ?_
  rw [Text.dropFirst, String.toList_ofList]
  exact List.drop_subset _ _

theorem Lexing.IsName.isUncut (hn : IsName n) : IsUncut n := by
  obtain ⟨c, cs, hl, hc, hcs⟩ := hn
  have hout : ∀ d ∈ ['|', '&'], beginsName d = false ∧ continuesName d = false := by decide
  have hmem : ∀ d ∈ ['|', '&'], d ∉ n.toList := by
    intro d hd hm
    rw [hl] at hm
    rcases List.mem_cons.mp hm with rfl | hm
    · simp [(hout d hd).1] at hc
    · simpa [(hout d hd).2] using hcs d hm
  exact ⟨hmem '|' (by simp), hmem '&' (by simp)⟩

theorem IsClassName.append (ha : IsClassName a) (hs : IsUncut s) : IsClassName (a ++ s) :=
  ⟨ha.isAbsolute.append, ha.uncut.append hs⟩

theorem isUncut_lateBound (hn : IsUncut n) : IsUncut (lateBound n) := by
  have hw : IsUncut "static(" ∧ IsUncut ")" := by
    unfold IsUncut
    decide
  exact (hw.1.append hn).append hw.2

structure IsPlainAtom (a : String) : Prop where
  uncut : IsUncut a
  isAtom : IsAtom a

theorem isPlainAtom_word {w : String} (hw : ∀ d ∈ w.toList, d ∉ ['\\', '(', ')', '|', '&']) :
    IsPlainAtom w := by
  have hm := @isMember_word [] w hw
  exact ⟨hm.uncut w (by simp), hm.atoms w (by simp)⟩

theorem IsClassName.isPlainAtom (hn : IsClassName n) : IsPlainAtom n :=
  ⟨hn.uncut, .name n hn.isAbsolute⟩

theorem IsPlainAtom.lateBound (hn : IsClassName n) : IsPlainAtom (lateBound n) :=
  ⟨isUncut_lateBound hn.uncut, .late n hn.isAbsolute⟩

theorem Hierarchy.IsMember.isPlainAtom {m : Member} (hm : h.IsMember m) (ha : a ∈ m) :
    IsPlainAtom a :=
  ⟨hm.uncut a ha, hm.atoms a ha⟩

theorem Hierarchy.isMember_of_plain {as : List String} {m : Member}
    (hp : ∀ a ∈ as, IsPlainAtom a) (hi : h.intersection as = some m) : h.IsMember m :=
  isMember_intersection (fun a ha => (hp a ha).uncut) (fun a ha => (hp a ha).isAtom) hi

def known (name : Option String) (word : String) (spell : String → String) : String :=
  match name with
  | some n => if n = "" then word else spell n
  | none => word

theorem known_cases {spell : String → String} {P : String → Prop} {name : Option String}
    {w : String} (hw : P w) (hn : ∀ n, name = some n → n ≠ "" → P (spell n)) :
    P (known name w spell) := by
  cases name with
  | none => exact hw
  | some n =>
    by_cases he : n = ""
    · simpa [known, he] using hw
    · simpa [known, he] using hn n rfl he

theorem Grammar.scopeType_eq {name : Option String} {w : String}
    (hk : IsUncut (known name w id)) : scopeType name w = .atom (known name w id) := by
  cases name with
  | none => rfl
  | some n =>
    by_cases he : n = ""
    · simp [scopeType, known, he]
    · simp only [known, if_neg he] at hk ⊢
      rw [scopeType, if_neg he]
      exact DocType.ofText_uncut hk

namespace Scope
variable {scope : Scope}

theorem IsNamed.qualify (hs : scope.IsNamed) (hu : IsUncut n) : IsClassName (scope.qualify n) := by
  have hb : IsClassName "\\" := ⟨by decide, by unfold IsUncut; decide⟩
  unfold Scope.qualify
  rcases hs.nameSpace with he | hn
  · rw [he, String.empty_append]
    exact hb.append hu
  · exact (hn.append hb.uncut).append hu

/-- Names resolve to absolute names. -/
theorem IsNamed.resolve (hs : scope.IsNamed) (hn : Lexing.IsName n) :
    IsClassName (scope.resolve n) := by
  have hu := hn.isUncut
  unfold Scope.resolve
  split
  · next ha => exact ⟨ha, hu⟩
  · split
    · exact hs.qualify (hu.dropFirst 10)
    · dsimp only
      split
      · next target ht => exact (hs.imports _ _ ht).append (hu.dropFirst _)
      · exact hs.qualify hu

end Scope

namespace Hierarchy
variable {P : String → Prop} {ms : List Member}

structure CanonicalOf (h : Hierarchy) (P : String → Prop) (t : DocType) : Prop
    extends h.Canonical t where
  atoms : ∀ m ∈ t.members, ∀ a ∈ m, P a

def MembersOf (h : Hierarchy) (P : String → Prop) (ms : List Member) : Prop :=
  ms ≠ [] ∧ ∀ m ∈ ms, h.IsMember m ∧ ∀ a ∈ m, P a

theorem CanonicalOf.membersOf (ht : h.CanonicalOf P t) : h.MembersOf P t.members :=
  ⟨ht.nonempty, fun m hm => ⟨ht.members m hm, ht.atoms m hm⟩⟩

theorem MembersOf.append {ns : List Member} (hm : h.MembersOf P ms) (hn : h.MembersOf P ns) :
    h.MembersOf P (ms ++ ns) := by
  refine ⟨by simp [hm.1], fun m h => ?_⟩
  cases List.mem_append.mp h with
  | inl h => exact hm.2 m h
  | inr h => exact hn.2 m h

theorem Absolute.canonicalOf_union (ha : h.Absolute) (hms : h.MembersOf P ms) :
    h.CanonicalOf P (h.union ms) := by
  have hmem : ∀ m ∈ ms, h.IsMember m := fun m hm => (hms.2 m hm).1
  refine ⟨canonical_union hmem hms.1, fun m hm => ?_⟩
  exact (hms.2 m (((ha.selected_union hmem hms.1).mem_iff m).mp hm).1).2

end Hierarchy

namespace Grammar

/-- A property of all atoms that are read: those that a scope or a name gives have it, and
intersections keep it. -/
structure AtomInvariant (c : Context) (P : String → Prop) : Prop where
  plain : ∀ a, P a → IsPlainAtom a
  constant : ∀ w ∈ constants, P w
  self : P (known c.scope.className "self" id)
  parent : P (known c.scope.parentName "parent" id)
  static : P (known c.scope.className "static" lateBound)
  late : ∀ n, Lexing.IsName n → IsAbsolute n → P (lateBound n)
  name : ∀ n, IsClassText n → P (c.scope.resolve n)
  template : ∀ a v, c.scope.templates.get? a = some v → c.hierarchy.CanonicalOf P v
  meet : ∀ as m, (∀ a ∈ as, P a) → c.hierarchy.intersection as = some m → ∀ a ∈ m, P a

variable {P : String → Prop}

def OfStem (c : Context) (P : String → Prop) (ms : List Member) : Prop :=
  (∃ a, P a ∧ ms = [[a]]) ∨ ∃ name v, c.scope.templates.get? name = some v ∧ ms = v.members

theorem AtomInvariant.singleton (hP : AtomInvariant c P) (ha : P a) :
    c.hierarchy.MembersOf P [[a]] :=
  ⟨by simp, by simpa using ⟨isMember_singleton (hP.plain a ha).uncut (hP.plain a ha).isAtom, ha⟩⟩

theorem AtomInvariant.membersOf (hP : AtomInvariant c P) {ms : List Member}
    (hm : OfStem c P ms) : c.hierarchy.MembersOf P ms := by
  obtain ⟨a, ha, rfl⟩ | ⟨name, v, hv, rfl⟩ := hm
  · exact hP.singleton ha
  · exact (hP.template name v hv).membersOf

/-- A type that is read without joining any is a single atom, unless a template stands for it. -/
theorem AtomInvariant.ofStem (hP : AtomInvariant c P) : StemInvariant c (OfStem c P) := by
  have hatom : ∀ {a}, P a → OfStem c P [[a]] := fun ha => .inl ⟨_, ha, rfl⟩
  have htext : ∀ {a}, P a → OfStem c P (DocType.ofText a).members := fun {a} ha => by
    rw [DocType.ofText_uncut (hP.plain a ha).uncut]
    exact hatom ha
  have hscope : ∀ {o w}, P (known o w id) → OfStem c P (scopeType o w).members := fun ha => by
    rw [scopeType_eq (hP.plain _ ha).uncut]
    exact hatom ha
  refine ⟨fun w hw => hatom (hP.constant w hw), hscope hP.self, hscope hP.parent, fun he => ?_,
    fun n hn he => ?_, fun n hn hab => htext (hP.late n hn hab), fun n hn => ?_, ?_⟩
  · have hs := hP.static
    obtain he | he := he <;> exact hatom (by simpa [known, he] using hs)
  · have hs := hP.static
    simp only [known, hn, if_neg he] at hs
    exact htext hs
  · have hresolve := htext (hP.name n hn)
    unfold Grammar.classType
    split
    · next hab => rwa [Scope.resolve, if_pos hab] at hresolve
    · split
      · next v _ hv => exact .inr ⟨_, v, hv, rfl⟩
      · exact hresolve
  · unfold Context.unknown
    split
    · exact hatom (hP.constant "mixed" (by decide))
    · exact hatom (hP.constant "never" (by decide))

theorem AtomInvariant.meets (hP : AtomInvariant c P) {as : List String} {m : Member}
    (has : ∀ a ∈ as, P a) (hm : c.hierarchy.intersection as = some m) :
    c.hierarchy.MembersOf P [m] := by
  have hmem : c.hierarchy.IsMember m := isMember_of_plain (fun a ha => hP.plain a (has a ha)) hm
  exact ⟨by simp, by simpa using ⟨hmem, hP.meet as m has hm⟩⟩

/-- All types that the grammar yields are in normal form, with the property of their atoms. -/
theorem AtomInvariant.invariant (ha : c.hierarchy.Absolute) (hP : AtomInvariant c P) :
    Invariant c (c.hierarchy.MembersOf P) (c.hierarchy.CanonicalOf P) where
  toStemInvariant := hP.ofStem.mono fun _ => hP.membersOf
  whole t ht := ht.membersOf
  append ms ns hm hn := hm.append hn
  meet ts _ hts := by
    have hats : ∀ a ∈ ts.flatMap DocType.atoms, P a := by
      intro a hm
      obtain ⟨t, ht, hat⟩ := List.mem_flatMap.mp hm
      obtain ⟨m, hm, ham⟩ := List.mem_flatten.mp hat
      exact ((hts t ht).1.2 m hm).2 a ham
    exact ⟨fun a he => hP.singleton (hats a (by simp [he])), fun m hm => hP.meets hats hm⟩
  union ms hms := ha.canonicalOf_union hms

theorem isPlainAtom_constant {w : String} (hw : w ∈ constants) : IsPlainAtom w := by
  by_cases he : w = "\\Closure"
  · subst he
    exact ⟨by unfold IsUncut; decide, .name _ (by decide)⟩
  · have hall : ∀ w ∈ constants, w ≠ "\\Closure" →
        ∀ d ∈ w.toList, d ∉ ['\\', '(', ')', '|', '&'] := by decide
    exact isPlainAtom_word (hall w hw he)

/-- Atoms are plain if the names that the scope knows are absolute. -/
theorem atomInvariant_plain (hs : c.scope.IsNamed)
    (hv : ∀ a v, c.scope.templates.get? a = some v → c.hierarchy.Canonical v) :
    AtomInvariant c IsPlainAtom where
  plain a ha := ha
  constant w hw := isPlainAtom_constant hw
  self := known_cases (isPlainAtom_word (by decide)) fun n hn he =>
    (hs.className n hn).resolve_left he |>.isPlainAtom
  parent := known_cases (isPlainAtom_word (by decide)) fun n hn he =>
    (hs.parentName n hn).resolve_left he |>.isPlainAtom
  static := known_cases (isPlainAtom_word (by decide)) fun n hn he =>
    .lateBound ((hs.className n hn).resolve_left he)
  late n hn hab := .lateBound ⟨hab, hn.isUncut⟩
  name n hn := (hs.resolve hn.name).isPlainAtom
  template a v hav := by
    have ht := hv a v hav
    exact ⟨ht, fun m hm b hb => (ht.members m hm).isPlainAtom hb⟩
  meet as m has hm a ham := (isMember_of_plain has hm).isPlainAtom ham

end Grammar

namespace TypedTag

/-- A type that is set off from what follows was read by the grammar. -/
theorem exists_of_readType {text : List Char} {e : Extent} {r : Reading} {s s' : Reader}
    (hr : readType c text e s = .ok (r, s')) : Grammar.type c s = .ok (r.type, s') := by
  unfold readType at hr
  split at hr
  · cases hr
  · next t after hg =>
    dsimp only at hr
    split at hr
    · cases hr
      exact hg
    · cases hr

def addsNull (e : Extent) (s : Reader) : Bool :=
  let target := if e.hasVariable then readVariable e s else none
  e == .default && target.isSome && seesNullDefault ((target.map (·.2)).getD s)

/-- The type of a tag is read by the grammar; the lexemes left after it decide whether `null` is
added to it. -/
theorem exists_of_read {text : String} {e : Extent} (hr : (read c text e).type = some t) :
    ∃ u s, Grammar.type c { rest := (lex text).lexemes } = .ok (u, s) ∧
      t = if addsNull e s then c.hierarchy.union (u.members ++ [["null"]]) else u := by
  unfold read at hr
  cases hre : readType c text.toList e { rest := (lex text).lexemes } with
  | error f => simp [hre, Except.toOption] at hr
  | ok p =>
    obtain ⟨r, s⟩ := p
    simp only [hre, Except.toOption, Option.map_some, Option.some.injEq] at hr
    exact ⟨r.type, s, exists_of_readType hre, hr.symm⟩

theorem rest_readTemplateName_subset (s : Reader) : (readTemplateName s).2.rest ⊆ s.rest := by
  unfold readTemplateName
  split
  · next l rest hl =>
    dsimp only
    split
    · exact hl ▸ List.subset_cons_self _ _
    · exact List.Subset.refl _
  · exact List.Subset.refl _

/-- The bound of a template is `mixed`, or read by the grammar from an end of the text. -/
theorem exists_of_readTemplate {text : String} (hr : (readTemplate c text).type = some t) :
    t = .mixed ∨ ∃ s s' : Reader, s.rest ⊆ (lex text).lexemes ∧ Grammar.type c s = .ok (t, s') := by
  unfold readTemplate at hr
  dsimp only at hr
  split at hr
  · split at hr
    · next r s' hr' =>
      obtain rfl : r.type = t := Option.some.inj hr
      refine Or.inr ⟨_, s', ?_, exists_of_readType hr'⟩
      exact List.Subset.trans (List.tail_sublist _).subset
        (rest_readTemplateName_subset { rest := (lex text).lexemes })
    · cases hr
  · exact Or.inl (Option.some.inj hr).symm

end TypedTag

namespace Hierarchy
variable {P : String → Prop}

theorem Absolute.canonicalOf_type (ha : c.hierarchy.Absolute) (hP : Grammar.AtomInvariant c P)
    {s s' : Reader} (hl : ∀ l ∈ s.rest, l.IsProper) (hg : Grammar.type c s = .ok (t, s')) :
    c.hierarchy.CanonicalOf P t :=
  (Grammar.yields_type (hP.invariant ha) s t s' hl hg).1

/-- The types of tags are in normal form, with any property that all atoms have. -/
theorem Absolute.canonicalOf_read (ha : c.hierarchy.Absolute) (hP : Grammar.AtomInvariant c P)
    {text : String} {e : Extent} (hr : (TypedTag.read c text e).type = some t) :
    c.hierarchy.CanonicalOf P t := by
  obtain ⟨u, s, hg, ht⟩ := TypedTag.exists_of_read hr
  have hu : c.hierarchy.CanonicalOf P u :=
    ha.canonicalOf_type hP (fun l hl => isProper_of_mem_lex hl) hg
  rw [ht]
  split
  · exact ha.canonicalOf_union (hu.membersOf.append (hP.singleton (hP.constant "null" (by decide))))
  · exact hu

/-- The types that are read from tags are in normal form. -/
theorem Absolute.canonical_output (ha : h.Absolute) (ht : Output h t) : h.Canonical t := by
  induction ht with
  | tag scope wide text e t hn _ hr ih =>
    exact (ha.canonicalOf_read (c := ⟨scope, h, wide⟩) (Grammar.atomInvariant_plain hn ih)
      hr).toCanonical
  | template scope wide text t hn _ hr ih =>
    obtain rfl | ⟨s, s', hsub, hg⟩ := TypedTag.exists_of_readTemplate hr
    · have hmixed : h.IsMember ["mixed"] := isMember_word (by decide)
      exact canonical_atom (hmixed.uncut _ (by simp)) (hmixed.atoms _ (by simp))
    · exact (ha.canonicalOf_type (c := ⟨scope, h, wide⟩) (Grammar.atomInvariant_plain hn ih)
        (fun l hl => isProper_of_mem_lex (hsub hl)) hg).toCanonical

end Hierarchy
end PhpDoc
