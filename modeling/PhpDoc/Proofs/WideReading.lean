import PhpDoc.Proofs.Bounds
import PhpDoc.Proofs.FixedPoints
/-!
Wide readings. A text that is read as a type with the unknown taken to be anything, and again with
the unknown taken to be nothing, is read in the same steps: where the types of its parts decide how
to go on, one of the readings fails. So the wide type has a member above each member of the narrow
one, and the two compare.
-/
namespace PhpDoc
open Hierarchy

variable {h : Hierarchy} {scope : Scope} {c : Context} {ms : List Member} {t u : DocType}
  {ts : List DocType}

namespace Grammar
open Parse

structure NestedInStep (h : Hierarchy) (inner inner' : Nested) : Prop where
  whole : InStep Lexeme.IsProper inner.whole inner'.whole (WidensType h)
  bracketed : InStep Lexeme.IsProper inner.bracketed inner'.bracketed (WidensType h)
  single : InStep Lexeme.IsProper inner.single inner'.single (WidensType h)
  basic : InStep Lexeme.IsProper inner.basic inner'.basic (WidensType h)

variable {inner inner' : Nested} {L : Lexeme → Prop} {R : DocType → DocType → Prop}
  {Q : List Member → Prop} {W : DocType → Prop}

theorem inStep_argumentsTo (hw : InStep L inner.whole inner'.whole R) (bound : Nat) :
    InStep L (argumentsTo inner bound) (argumentsTo inner' bound) Eq := by
  induction bound with
  | zero => exact inStep_of_fails fun _ _ => fail_ne_ok
  | succ bound ih =>
    refine hw.next fun _ _ => (yields_sees _).then fun _ => inStep_ite (yields_expect _).inStep ?_
    exact yields_skip.then fun _ => ih

theorem inStep_arguments (hw : InStep L inner.whole inner'.whole R) (most : Option Nat) :
    InStep L (arguments inner most) (arguments inner' most) Eq :=
  (yields_expect _).then fun _ => yields_get.then fun _ => inStep_argumentsTo hw _

theorem inStep_entriesTo (hw : InStep L inner.whole inner'.whole R) (keyed : Bool) (bound : Nat) :
    InStep L (entriesTo inner keyed bound) (entriesTo inner' keyed bound) Eq := by
  induction bound with
  | zero => exact inStep_of_fails fun _ _ => fail_ne_ok
  | succ bound ih =>
    have hrest : ∀ first : Parse Unit, Yields L first (fun _ => True) → InStep L (do
        first
        let _ ← inner.whole
        if ← sees "," then
          skip
          if ← sees "\x7d" then skip else entriesTo inner keyed bound
        else expect "\x7d") (do
        first
        let _ ← inner'.whole
        if ← sees "," then
          skip
          if ← sees "\x7d" then skip else entriesTo inner' keyed bound
        else expect "\x7d") Eq := by
      refine fun first hf => hf.then fun _ => hw.next fun _ _ => (yields_sees _).then
        fun _ => inStep_ite ?_ (yields_expect _).inStep
      exact yields_skip.then fun _ => (yields_sees _).then
        fun _ => inStep_ite yields_skip.inStep ih
    refine (yields_sees _).then fun _ => inStep_ite ?_ (inStep_ite ?_ ?_)
    · exact yields_skip.then fun _ => (yields_expect _).inStep
    · exact hrest _ yields_requiredKey
    · exact hrest _ yields_optionalKey

theorem inStep_shape (hw : InStep L inner.whole inner'.whole R) (keyed : Bool) :
    InStep L (shape inner keyed) (shape inner' keyed) Eq := by
  refine (yields_expect _).then fun _ => (yields_sees _).then
    fun _ => inStep_ite yields_skip.inStep ?_
  exact yields_get.then fun _ => inStep_entriesTo hw keyed _

theorem inStep_parametersTo (hw : InStep L inner.whole inner'.whole R) (bound : Nat) :
    InStep L (parametersTo inner bound) (parametersTo inner' bound) Eq := by
  induction bound with
  | zero => exact inStep_of_fails fun _ _ => fail_ne_ok
  | succ bound ih =>
    have hrest : InStep L (do
        if !(← sees ")") then expect ","
        parametersTo inner bound) (do
        if !(← sees ")") then expect ","
        parametersTo inner' bound) Eq := by
      refine (yields_sees _).then fun _ => inStep_ite ?_ ih
      exact (yields_expect _).then fun _ => ih
    refine (yields_sees _).then fun _ => inStep_ite yields_skip.inStep ?_
    refine hw.next fun _ _ => (yields_accept _).then fun _ => (yields_accept _).then fun _ =>
      (yields_accept _).then fun _ => yields_next?.then fun _ => inStep_ite ?_ hrest
    exact yields_skip.then fun _ => hrest

theorem inStep_mask {d : Context} (hb : InStep L inner.basic inner'.basic R) :
    InStep L (mask c inner) (mask d inner') Eq := by
  intro s x y s₁ s₂ hL hp hq
  obtain ⟨t, ht, -⟩ := mask_eq_ok.mp hp
  obtain ⟨u, hu, -⟩ := mask_eq_ok.mp hq
  exact ⟨rfl, (hb s t u s₁ s₂ hL ht hu).2⟩

section Basic
variable (hw : NestedInStep h inner inner')
include hw

theorem inStep_int : InStep Lexeme.IsProper (int ⟨scope, h, true⟩ inner)
    (int ⟨scope, h, false⟩ inner') Eq := by
  have hend : InStep Lexeme.IsProper (pure (.atom "int")) (pure (.atom "int")) (@Eq DocType) :=
    inStep_pure rfl
  refine yields_word.then fun w => inStep_ite ?_ (inStep_ite ?_ (inStep_ite ?_ hend))
  · refine (yields_sees _).then fun _ => inStep_ite ?_ hend
    exact yields_skip.then fun _ => (yields_rangeBound _).then fun _ => (yields_expect _).then
      fun _ => (yields_rangeBound _).then fun _ => (yields_expect _).then fun _ => hend
  · exact (yields_expect _).then fun _ => (inStep_items (inStep_mask hw.basic) (yields_sees _)).next
      fun _ _ => (yields_expect _).then fun _ => hend
  · exact (yields_expect _).then fun _ => (inStep_mask hw.basic).next
      fun _ _ => (yields_expect _).then fun _ => hend

theorem inStep_string : InStep Lexeme.IsProper (string ⟨scope, h, true⟩ inner)
    (string ⟨scope, h, false⟩ inner') Eq := by
  have hend : InStep Lexeme.IsProper (pure (.atom "string")) (pure (.atom "string"))
      (@Eq DocType) := inStep_pure rfl
  refine yields_word.then fun w => inStep_ite ?_ hend
  refine (yields_sees _).then fun _ => inStep_ite ?_ hend
  refine yields_skip.then fun _ => hw.whole.next fun t u =>
    inStep_guard ?_ (fun _ _ => fail_bind_ne_ok) fun _ _ => fail_bind_ne_ok
  exact (yields_expect _).then fun _ => hend

theorem inStep_array : InStep Lexeme.IsProper (array ⟨scope, h, true⟩ inner)
    (array ⟨scope, h, false⟩ inner') Eq := by
  have hend : InStep Lexeme.IsProper (pure (.atom "array")) (pure (.atom "array"))
      (@Eq DocType) := inStep_pure rfl
  have hclose : InStep Lexeme.IsProper (do
      expect ">"
      pure (.atom "array")) (do
      expect ">"
      pure (.atom "array")) (@Eq DocType) := (yields_expect _).then fun _ => hend
  refine yields_word.then fun w => (yields_sees _).then fun _ => inStep_ite ?_ ?_
  · refine yields_skip.then fun _ => hw.whole.next fun t u => (yields_sees _).then
      fun _ => inStep_ite (inStep_ite (inStep_of_fails fun _ _ => fail_bind_ne_ok) ?_) hclose
    refine inStep_guard ?_ (fun _ _ => fail_bind_ne_ok) fun _ _ => fail_bind_ne_ok
    exact yields_skip.then fun _ => hw.whole.next fun _ _ => hclose
  · refine (yields_sees _).then fun _ => inStep_ite ?_ hend
    refine inStep_ite (inStep_of_fails fun _ _ => fail_bind_ne_ok) ?_
    exact (inStep_shape hw.whole _).next fun _ _ => hend

theorem inStep_callable : InStep Lexeme.IsProper (callable inner) (callable inner') Eq := by
  refine yields_take.then fun l => (yields_sees _).then fun _ => inStep_ite ?_ (inStep_pure rfl)
  refine yields_skip.then fun _ => yields_get.then fun _ => (inStep_parametersTo hw.whole _).next
    fun _ _ => (yields_expect _).then fun _ => (yields_sees _).then fun _ => inStep_ite ?_ ?_
  · exact hw.whole.next fun _ _ => inStep_pure rfl
  · exact hw.single.next fun _ _ => inStep_pure rfl

theorem inStep_keyOrValue : InStep Lexeme.IsProper (keyOrValue ⟨scope, h, true⟩ inner)
    (keyOrValue ⟨scope, h, false⟩ inner') fun t u => t = .mixed ∧ u = .never := by
  refine yields_skip.then fun _ => (yields_expect _).then fun _ => hw.whole.next fun t u =>
    inStep_guard ?_ (fun _ _ => fail_bind_ne_ok) fun _ _ => fail_bind_ne_ok
  exact (yields_expect _).then fun _ => inStep_pure ⟨rfl, rfl⟩

theorem inStep_className : InStep Lexeme.IsProper (className ⟨scope, h, true⟩ inner)
    (className ⟨scope, h, false⟩ inner') Eq := by
  refine yields_take.then fun l =>
    inStep_ite (inStep_of_fails fun _ _ => fail_bind_ne_ok) ?_
  refine (yields_sees _).then fun _ => inStep_ite ?_ (inStep_pure rfl)
  exact (inStep_arguments hw.whole _).next fun _ _ => inStep_pure rfl

def IsSameOrUnknown (t u : DocType) : Prop :=
  t = u ∨ (t = .mixed ∧ u = .never)

omit hw in
theorem inStep_static (hI : Invariant ⟨scope, h, true⟩ Q W) :
    InStep Lexeme.IsProper (static ⟨scope, h, true⟩) (static ⟨scope, h, false⟩) Eq :=
  Yields.inStep (yields_static hI.toStemInvariant)

/-- A basic type up to its suffix is the same in both readings, or unknown. -/
theorem inStep_stem (hI : Invariant ⟨scope, h, true⟩ Q W) (k : Construct) :
    InStep Lexeme.IsProper (stem ⟨scope, h, true⟩ inner k) (stem ⟨scope, h, false⟩ inner' k)
      IsSameOrUnknown := by
  have hsame : ∀ {p q : Parse DocType}, InStep Lexeme.IsProper p q Eq →
      InStep Lexeme.IsProper p q IsSameOrUnknown := fun hpq => hpq.mono fun _ _ => Or.inl
  cases k with
  | bool => exact hsame (yields_word.then fun _ => inStep_pure rfl)
  | int => exact hsame (inStep_int hw)
  | float => exact hsame (yields_word.then fun _ => inStep_pure rfl)
  | string => exact hsame (inStep_string hw)
  | array => exact hsame (inStep_array hw)
  | object =>
    refine hsame (yields_skip.then fun _ => (yields_sees _).then fun _ => inStep_ite ?_ ?_)
    · exact (inStep_shape hw.whole _).next fun _ _ => inStep_pure rfl
    · exact inStep_pure rfl
  | never => exact hsame (yields_word.then fun _ => inStep_pure rfl)
  | plain => exact hsame (yields_take.then fun _ => inStep_pure rfl)
  | self => exact hsame (yields_skip.then fun _ => inStep_pure rfl)
  | parent => exact hsame (yields_skip.then fun _ => inStep_pure rfl)
  | static => exact hsame (inStep_static hI)
  | callable => exact hsame (inStep_callable hw)
  | iterable =>
    refine hsame (yields_skip.then fun _ => (yields_sees _).then fun _ => inStep_ite ?_ ?_)
    · exact (inStep_arguments hw.whole _).next fun _ _ => inStep_pure rfl
    · exact inStep_pure rfl
  | keyOrValue => exact (inStep_keyOrValue hw).mono fun _ _ => Or.inr
  | className => exact hsame (inStep_className hw)

omit hw in
/-- Neither of the unknown types is the type of an object. -/
theorem IsSameOrUnknown.superTypes_contains (hs : IsSameOrUnknown t u) :
    (h.superTypes t.text).contains "object" = (h.superTypes u.text).contains "object" := by
  obtain rfl | ⟨rfl, rfl⟩ := hs
  · rfl
  · rw [superTypes_word (by decide) (by decide), superTypes_word (by decide) (by decide)]
    decide

theorem inStep_basic_same (hI : Invariant ⟨scope, h, true⟩ Q W) :
    InStep Lexeme.IsProper (basic ⟨scope, h, true⟩ inner) (basic ⟨scope, h, false⟩ inner')
      IsSameOrUnknown := by
  refine yields_next?.then fun o => ?_
  dsimp only
  cases o.bind (construct? scope) with
  | none => exact inStep_of_fails fun _ _ => fail_ne_ok
  | some k =>
    refine (inStep_stem hw hI k).bind fun t u htu => ?_
    rw [htu.superTypes_contains]
    refine (yields_sees _).then fun _ => inStep_ite ?_ (inStep_pure htu)
    exact yields_skip.then fun _ => yields_constantName.then fun _ =>
      inStep_pure (Or.inr ⟨rfl, rfl⟩)

variable (hI : Invariant ⟨scope, h, true⟩ (h.MembersOf IsPlainAtom) W)
  (hn : NestedYields inner (h.MembersOf IsPlainAtom) W)
include hI hn

theorem inStep_basic : InStep Lexeme.IsProper (basic ⟨scope, h, true⟩ inner)
    (basic ⟨scope, h, false⟩ inner') (WidensType h) := by
  refine ((inStep_basic_same hw hI).yielding (yields_basic hI hn)).mono ?_
  rintro t u ⟨rfl | ⟨rfl, rfl⟩, ht⟩
  · exact .refl ht
  · exact widensType_unknown

omit hw hI hn in
theorem inStep_bracketsTo (htu : WidensType h t u) (bound : Nat) :
    InStep L (bracketsTo t bound) (bracketsTo u bound) (WidensType h) := by
  induction bound generalizing t u with
  | zero => exact inStep_pure htu
  | succ bound ih =>
    refine (yields_sees _).then fun _ => (yields_seesAt _ _).then
      fun _ => inStep_ite ?_ (inStep_pure htu)
    exact yields_skip.then fun _ => yields_skip.then fun _ => ih (widens_constant (by decide))

theorem inStep_single : InStep Lexeme.IsProper (single ⟨scope, h, true⟩ inner)
    (single ⟨scope, h, false⟩ inner') (WidensType h) := by
  have hend : ∀ t u : DocType, WidensType h t u → InStep Lexeme.IsProper
      (do bracketsTo t (← get).rest.length) (do bracketsTo u (← get).rest.length) (WidensType h) :=
    fun t u htu => yields_get.then fun _ => inStep_bracketsTo htu _
  refine (yields_sees _).then fun _ => inStep_ite ?_ ?_
  · exact yields_skip.then fun _ => hw.bracketed.bind fun t u htu => (yields_expect _).then
      fun _ => hend t u htu
  · exact (inStep_basic hw hI hn).bind hend

end Basic

theorem joinAtoms_eq (c : Context) (as : List String) : joinAtoms c as = meetOrFail c as := by
  unfold joinAtoms
  split
  · rw [meetOrFail, intersection_singleton]
  · rfl

/-- A single union is left as it is, and parts that are no unions are intersected. -/
theorem join_cases (c : Context) (ts : List DocType) :
    (∃ t, ts = [t] ∧ join c ts = pure t.members) ∨ join c ts = fail ∨
      (ts.any DocType.isUnion = false ∧
        join c ts = meetOrFail c (ts.flatMap DocType.atoms)) := by
  unfold join
  split
  · next t _ => exact Or.inl ⟨t, rfl, rfl⟩
  · exact Or.inr (Or.inl rfl)
  · next hu => exact Or.inr (Or.inr ⟨hu, joinAtoms_eq c _⟩)

/-- A single part that is no union is intersected to itself. -/
theorem joins_of_meet {m : Member} (ha : h.Absolute)
    (hts : ∀ t ∈ ts, h.MembersOf IsPlainAtom t.members) (hne : ts ≠ [])
    (hone : ∀ t ∈ ts, t.isUnion = false)
    (hm : h.intersection (ts.flatMap DocType.atoms) = some m) : Joins h ts [m] := by
  match ts, hne with
  | [t], _ =>
    obtain ⟨n, hn⟩ := (isUnion_eq_false_iff (hts t (by simp)).1).mp (hone t (by simp))
    have hmem : h.IsMember n := ((hts t (by simp)).2 n (by simp [hn])).1
    have hatoms : [t].flatMap DocType.atoms = n := by simp [DocType.atoms, hn]
    rw [hatoms, ha.intersection_self hmem] at hm
    rw [← Option.some.inj hm, ← hn]
    exact .one t
  | t :: u :: rest, _ => exact .more _ m (by simp) hone hm

/-- Joining reads nothing further. -/
theorem joins_of_join {s s' : Reader} (ha : c.hierarchy.Absolute)
    (hts : ∀ t ∈ ts, c.hierarchy.MembersOf IsPlainAtom t.members) (hne : ts ≠ [])
    (hj : join c ts s = .ok (ms, s')) : s = s' ∧ Joins c.hierarchy ts ms := by
  obtain ⟨t, rfl, he⟩ | he | ⟨hu, he⟩ := join_cases c ts
  all_goals rw [he] at hj
  · obtain ⟨rfl, rfl⟩ := pure_eq_ok.mp hj
    exact ⟨rfl, .one t⟩
  · exact (fail_ne_ok hj).elim
  · rw [meetOrFail] at hj
    cases hm : c.hierarchy.intersection (ts.flatMap DocType.atoms) with
    | none =>
      rw [hm] at hj
      exact (fail_ne_ok hj).elim
    | some m =>
      rw [hm] at hj
      obtain ⟨rfl, rfl⟩ := pure_eq_ok.mp hj
      exact ⟨rfl, joins_of_meet ha hts hne (by simpa using hu) hm⟩

section Whole
variable (ha : h.Absolute) (hc : h.Acyclic) (hw : NestedInStep h inner inner')
  (hI : Invariant ⟨scope, h, true⟩ (h.MembersOf IsPlainAtom) W)
  (hn : NestedYields inner (h.MembersOf IsPlainAtom) W)
include ha hc hw hI hn

theorem inStep_intersection : InStep Lexeme.IsProper (intersection ⟨scope, h, true⟩ inner)
    (intersection ⟨scope, h, false⟩ inner') (Widens h) := by
  rw [intersection_eq, intersection_eq]
  refine (inStep_items (inStep_single hw hI hn) yields_joins).bind fun ts us htu => ?_
  intro s ms ns s₁ s₂ _ hm hn
  have hts : ∀ t ∈ ts, h.MembersOf IsPlainAtom t.members := by
    intro t ht
    obtain ⟨u, -, hw⟩ := htu.exists_right t ht
    exact hw.wide
  have hus : ∀ u ∈ us, h.MembersOf IsPlainAtom u.members := by
    intro u hu
    obtain ⟨t, -, hw⟩ := htu.exists_left u hu
    exact hw.narrow
  obtain ⟨rfl, hts⟩ := joins_of_join (c := ⟨scope, h, true⟩) ha hts htu.1 hm
  obtain ⟨rfl, hus⟩ := joins_of_join (c := ⟨scope, h, false⟩) ha hus htu.flip.1 hn
  exact ⟨ha.widens_of_joins hc htu hts hus, rfl, List.suffix_rfl⟩

theorem inStep_whole : InStep Lexeme.IsProper (whole ⟨scope, h, true⟩ inner)
    (whole ⟨scope, h, false⟩ inner') (WidensType h) := by
  refine (yields_sees _).then fun _ => inStep_ite ?_ ?_
  · refine yields_skip.then fun _ => (inStep_single hw hI hn).bind fun t u htu => inStep_pure ?_
    exact ha.widensType_union (htu.append (widens_constant (by decide)))
  · refine (inStep_items (inStep_intersection ha hc hw hI hn) (yields_sees _)).bind
      fun mss nss hall => inStep_pure ?_
    exact ha.widensType_union (widens_flatten hall)

theorem inStep_bracketed : InStep Lexeme.IsProper (bracketed ⟨scope, h, true⟩ inner)
    (bracketed ⟨scope, h, false⟩ inner') (WidensType h) := by
  refine yields_next?.then fun _ => (yields_seesAt _ _).then fun _ => inStep_ite ?_ ?_
  · refine yields_skip.then fun _ => yields_skip.then fun _ => hw.whole.next fun _ _ =>
      (yields_expect _).then fun _ => hw.whole.bind fun t u htu => (yields_expect _).then
      fun _ => hw.whole.bind fun t' u' htu' => inStep_pure ?_
    exact ha.widensType_union (htu.append htu')
  · exact inStep_whole ha hc hw hI hn

end Whole

/-- Wide and narrow readers of expressions of any depth are in step. -/
theorem nestedInStep (ha : h.Absolute) (hc : h.Acyclic)
    (hI : Invariant ⟨scope, h, true⟩ (h.MembersOf IsPlainAtom) (h.CanonicalOf IsPlainAtom))
    (depth : Nat) :
    NestedInStep h (nested ⟨scope, h, true⟩ depth) (nested ⟨scope, h, false⟩ depth) := by
  have hfail : InStep Lexeme.IsProper (fail : Parse DocType) fail (WidensType h) :=
    inStep_of_fails fun _ _ => fail_ne_ok
  induction depth with
  | zero => exact ⟨hfail, hfail, hfail, hfail⟩
  | succ depth ih =>
    have hn := nestedYields hI depth
    exact ⟨inStep_whole ha hc ih hI hn, inStep_bracketed ha hc ih hI hn, inStep_single ih hI hn,
      inStep_basic ih hI hn⟩

/-- A type is read widely and narrowly in the same steps. -/
theorem inStep_type (ha : h.Absolute) (hc : h.Acyclic)
    (hI : Invariant ⟨scope, h, true⟩ (h.MembersOf IsPlainAtom) (h.CanonicalOf IsPlainAtom)) :
    InStep Lexeme.IsProper (type ⟨scope, h, true⟩) (type ⟨scope, h, false⟩) (WidensType h) :=
  yields_get.then fun _ => (nestedInStep ha hc hI _).whole

end Grammar

/-- Of a text that is read as a type widely and narrowly, the wide type fits the narrow one. -/
theorem Hierarchy.Absolute.fits_of_read (ha : h.Absolute) (hc : h.Acyclic) (hs : scope.IsNamed)
    (hv : ∀ a v, scope.templates.get? a = some v → h.Canonical v) (text : String) (e : Extent)
    (hwide : (TypedTag.read ⟨scope, h, true⟩ text e).type = some t)
    (hnarrow : (TypedTag.read ⟨scope, h, false⟩ text e).type = some u) : h.fits t u = true := by
  have hP : ∀ wide, Grammar.AtomInvariant ⟨scope, h, wide⟩ IsPlainAtom := fun _ =>
    Grammar.atomInvariant_plain hs hv
  obtain ⟨t', s, ht', ht⟩ := TypedTag.exists_of_read hwide
  obtain ⟨u', s', hu', hu⟩ := TypedTag.exists_of_read hnarrow
  obtain ⟨hw, rfl, -⟩ := Grammar.inStep_type ha hc ((hP true).invariant ha) _ t' u' s s'
    (fun l hl => isProper_of_mem_lex hl) ht' hu'
  refine fits_of_bounds (ha.canonicalOf_read (hP true) hwide).toCanonical
    (ha.canonicalOf_read (hP false) hnarrow).toCanonical ?_
  rw [ht, hu]
  split
  · exact (ha.widensType_union (hw.append (widens_constant (by decide)))).bounds
  · exact hw.bounds

/-- An intersection with what is unknown makes another member redundant, but only in the wide
reading. -/
theorem fits_of_read_sample :
    sampleHierarchy.Absolute ∧ sampleHierarchy.Acyclic ∧ sampleScope.IsNamed ∧
      (∀ a v, sampleScope.templates.get? a = some v → sampleHierarchy.Canonical v) ∧
      (TypedTag.read ⟨sampleScope, sampleHierarchy, true⟩ "(key-of<array>&Bar)|T|self").type =
        some (.ofText "\\App\\Foo|\\Lib\\Bar") ∧
      (TypedTag.read ⟨sampleScope, sampleHierarchy, false⟩ "(key-of<array>&Bar)|T|self").type =
        some (.ofText "\\App\\Foo|\\Iterator&\\Lib\\Bar") ∧
      sampleHierarchy.fits (.ofText "\\App\\Foo|\\Lib\\Bar")
        (.ofText "\\App\\Foo|\\Iterator&\\Lib\\Bar") = true := by
  have ha : sampleHierarchy.Absolute := by
    unfold Hierarchy.Absolute IsAbsolute
    decide +kernel
  have hc : sampleHierarchy.Acyclic :=
    acyclic_of_rank (fun a => if a = "\\App\\Foo" then 4 else 0) (by decide +kernel)
      (by decide +kernel)
  have hs := sampleScope_isAscii
  have hv : ∀ a v, sampleScope.templates.get? a = some v → sampleHierarchy.Canonical v := by
    intro a v hav
    obtain ⟨hsp, hfix⟩ := sampleScope_templates a v hav
    exact (hfix.canonicalOf ha hc hs hsp).toCanonical
  have hwide : (TypedTag.read ⟨sampleScope, sampleHierarchy, true⟩
      "(key-of<array>&Bar)|T|self").type = some (.ofText "\\App\\Foo|\\Lib\\Bar") := by
    decide +kernel
  have hnarrow : (TypedTag.read ⟨sampleScope, sampleHierarchy, false⟩
      "(key-of<array>&Bar)|T|self").type =
        some (.ofText "\\App\\Foo|\\Iterator&\\Lib\\Bar") := by
    decide +kernel
  exact ⟨ha, hc, hs.isNamed, hv, hwide, hnarrow,
    ha.fits_of_read hc hs.isNamed hv _ _ hwide hnarrow⟩

end PhpDoc
