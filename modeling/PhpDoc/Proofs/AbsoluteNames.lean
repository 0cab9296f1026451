import PhpDoc.Proofs.Reachability
import PhpDoc.Proofs.Recovery
/-!
Names stay absolute. However a scope comes about, its names are absolute, and so are the names of
the classes that are found on a walk; so the supertypes of any name are computed in the end.
-/
namespace PhpDoc

theorem Bindings.mem_bind {α : Type} {m : Bindings α} {name : String} {value : α}
    {p : String × α} (hp : p ∈ m.bind name value) : p = (name, value) ∨ p ∈ m := by
  induction m with
  | nil => exact .inl (List.mem_singleton.mp hp)
  | cons q m ih =>
    rw [bind] at hp
    split at hp
    · exact (List.mem_cons.mp hp).imp_right (List.mem_cons_of_mem q)
    · rcases List.mem_cons.mp hp with rfl | hp
      · exact .inr List.mem_cons_self
      · exact (ih hp).imp_right (List.mem_cons_of_mem q)

theorem isAbsolute_append (s : String) : IsAbsolute ("\\" ++ s) :=
  isAbsolute_iff.mpr ⟨s.toList, by simp⟩

namespace Scope

/-- The names in a scope are absolute; only the namespace may be empty. -/
structure Rooted (s : Scope) : Prop where
  nameSpace : s.nameSpace = "" ∨ IsAbsolute s.nameSpace
  imports : ∀ p ∈ s.imports, IsAbsolute p.2
  className : ∀ n ∈ s.className, IsAbsolute n
  parentName : ∀ n ∈ s.parentName, IsAbsolute n

theorem rooted_file : ({} : Scope).Rooted :=
  ⟨.inl rfl, by simp, by simp, by simp⟩

namespace Rooted
variable {s : Scope}

theorem qualify (hs : s.Rooted) (name : String) : IsAbsolute (s.qualify name) := by
  have hns : IsAbsolute (s.nameSpace ++ "\\") := by
    rcases hs.nameSpace with he | ha
    · rw [he]
      decide
    · exact ha.append
  exact hns.append

theorem resolve (hs : s.Rooted) (name : String) : IsAbsolute (s.resolve name) := by
  unfold Scope.resolve
  split
  · next hname => exact hname
  · split
    · exact hs.qualify _
    · simp only
      split
      · next target htarget =>
        exact (hs.imports (Text.firstPiece '\\' name, target) (mem_of_lookup htarget)).append
      · exact hs.qualify _

theorem withNamespace (hs : s.Rooted) {name : String} (hn : name = "" ∨ IsAbsolute name) :
    (s.withNamespace name).Rooted :=
  ⟨hn, by simp [Scope.withNamespace], hs.className, hs.parentName⟩

theorem withImport (hs : s.Rooted) (short : String) {name : String} (hn : IsAbsolute name) :
    (s.withImport short name).Rooted := by
  refine ⟨hs.nameSpace, fun p hp => ?_, hs.className, hs.parentName⟩
  rcases Bindings.mem_bind hp with rfl | hp
  · exact hn
  · exact hs.imports p hp

theorem run (hs : s.Rooted) (b : Binder) (c : Option DocComment) : (b.run s c).Rooted := by
  cases c with
  | none => exact hs
  | some c => exact ⟨hs.nameSpace, hs.imports, hs.className, hs.parentName⟩

/-- A nested region is rooted if what it brings is. -/
theorem enter (hs : s.Rooted) {r : Region} {inner : Scope} (h : s.enter r = .ok inner)
    (hns : r.nameSpace = "" ∨ IsAbsolute r.nameSpace) (hclass : ∀ n ∈ r.className, IsAbsolute n)
    (hparent : ∀ n ∈ r.parentName, IsAbsolute n) : inner.Rooted := by
  unfold Scope.enter at h
  split at h
  · obtain rfl := Except.ok.inj h
    dsimp only
    split
    · exact ⟨hs.nameSpace, hs.imports, hclass, hparent⟩
    · exact ⟨hns, by simp, hs.className, hs.parentName⟩
    · exact ⟨hs.nameSpace, hs.imports, hs.className, hs.parentName⟩
  · cases h

end Rooted
end Scope

def Visit.Rooted : Visit → Prop
  | .nameSpace name => name = "" ∨ IsAbsolute name
  | .classLike name parent interfaces =>
    (∀ n ∈ name, IsAbsolute n) ∧ (∀ n ∈ parent, IsAbsolute n) ∧ ∀ n ∈ interfaces, IsAbsolute n
  | .templates scope _ | .classDocs scope _ | .functionDocs scope _ _ _
  | .variableDocs scope _ _ _ _ => scope.Rooted
  | .imported _ _ | .comment _ | .function _ | .declared _ | .fault _ => True

namespace Outline
open Step

def Item.Rooted : Item → Prop
  | .visit v => v.Rooted
  | .region scope _ _ => scope.Rooted

namespace Step
variable {α β : Type} {ts : Tokens} {P : α → Prop}

def Roots (ts : Tokens) (P : α → Prop) (s : Step α) : Prop :=
  ∀ p : Progress, (∀ x ∈ p.items, x.Rooted) →
    Holds ts s (fun a q => P a ∧ ∀ x ∈ q.items, x.Rooted) (fun _ q => ∀ x ∈ q.items, x.Rooted) p

namespace Roots

theorem pure {a : α} (h : P a) : Roots ts P (Pure.pure a) :=
  fun _ hp => ⟨h, hp⟩

theorem throw (e : ScanError) : Roots ts P (MonadExcept.throw e : Step α) :=
  fun _ hp => hp

theorem fail (fault : ScanFault) : Roots ts P (Step.fail fault) :=
  fun _ hp => hp

theorem bind {Q : β → Prop} {x : Step α} {f : α → Step β} (hx : Roots ts P x)
    (hf : ∀ a, P a → Roots ts Q (f a)) : Roots ts Q (x >>= f) :=
  fun p hp => holds_bind_of _ (hx p hp) fun a q ha => hf a ha.1 q ha.2

/-- A step of whose result nothing has to be known. -/
theorem andThen {Q : β → Prop} {x : Step α} {f : α → Step β} (hx : Roots ts (fun _ => True) x)
    (hf : ∀ a, Roots ts Q (f a)) : Roots ts Q (x >>= f) :=
  hx.bind fun a _ => hf a

theorem read : Roots ts (fun _ => True) (MonadReader.read : Step Tokens) :=
  fun _ hp => ⟨trivial, hp⟩

theorem position : Roots ts (fun _ => True) Step.position :=
  fun _ hp => ⟨trivial, hp⟩

theorem kind? : Roots ts (fun _ => True) Step.kind? :=
  fun _ hp => ⟨trivial, hp⟩

theorem move (i : Nat) : Roots ts (fun _ => True)
    (modify fun p : Progress => { p with position := i } : Step Unit) :=
  fun _ hp => ⟨trivial, hp⟩

theorem jump (i : Nat) : Roots ts (fun _ => True) (Step.jump i) :=
  fun _ hp => ⟨trivial, hp⟩

theorem current : Roots ts (fun _ => True) Step.current :=
  fun _ hp => holds_current (fun _ _ => ⟨trivial, hp⟩) fun _ => hp

theorem take (expected : Option Kind) : Roots ts (fun _ => True) (Step.take expected) :=
  fun _ hp => holds_take (fun _ _ _ => ⟨trivial, hp⟩) fun _ _ => hp

theorem accept (k : Kind) : Roots ts (fun _ => True) (Step.accept k) :=
  fun _ hp => holds_accept (fun _ => ⟨trivial, hp⟩) fun _ => ⟨trivial, hp⟩

theorem paired (g : Option Group) : Roots ts (fun _ => True) (Step.paired g) :=
  fun _ hp => holds_paired (fun _ _ => ⟨trivial, hp⟩) fun _ => hp

theorem skipTo (kinds : List Kind) : Roots ts (fun _ => True) (Step.skipTo kinds) :=
  fun _ hp => holds_skipTo (fun _ _ _ => ⟨trivial, hp⟩) hp

theorem note {x : Item} (hx : x.Rooted) : Roots ts (fun _ => True) (Step.note x) :=
  fun _ hp => ⟨trivial, List.forall_mem_append.mpr ⟨hp, List.forall_mem_singleton.mpr hx⟩⟩

theorem meet {v : Visit} (hv : v.Rooted) : Roots ts (fun _ => True) (Step.meet v) :=
  note hv

theorem meetWith {visit : DocComment → Visit} (hv : ∀ c, (visit c).Rooted)
    (c : Option DocComment) : Roots ts (fun _ => True) (Step.meetWith visit c) := by
  cases c with
  | none => exact .pure trivial
  | some c => exact .meet (hv c)

theorem within {scope : Scope} (hs : scope.Rooted) (stop : Nat) :
    Roots ts (fun _ => True) (Step.within scope stop) :=
  .andThen .position fun _ => .andThen (.note hs) fun _ => .jump _

theorem withinGroup {scope : Scope} (hs : scope.Rooted) (g : Option Group) :
    Roots ts (fun _ => True) (Step.withinGroup scope g) := by
  cases g with
  | none => exact .pure trivial
  | some g => exact .andThen (.jump _) fun _ => .within hs _

/-- A region is entered that brings no names. -/
theorem enter {scope : Scope} (hs : scope.Rooted) {r : Region}
    (hns : r.nameSpace = "" ∨ IsAbsolute r.nameSpace) (hclass : ∀ n ∈ r.className, IsAbsolute n)
    (hparent : ∀ n ∈ r.parentName, IsAbsolute n) :
    Roots ts Scope.Rooted (Step.enter scope r) :=
  fun _ hp => holds_enter (fun _ h => ⟨hs.enter h hns hclass hparent, hp⟩) fun _ _ => hp

end Roots
end Step

section
variable {ts : Tokens} {scope : Scope} {b : Binder}

theorem namespaceStatement_roots (hs : scope.Rooted) :
    Roots ts Scope.Rooted (namespaceStatement scope) := by
  have hname : ∀ bare : String,
      (if bare = "" then "" else "\\" ++ bare) = "" ∨
        IsAbsolute (if bare = "" then "" else "\\" ++ bare) := by
    intro bare
    split
    · exact .inl rfl
    · exact .inr (isAbsolute_append bare)
  have hread : Roots ts (fun _ => True) namespaceName := by
    refine .andThen .kind? fun k => ?_
    split
    · exact .andThen (.take none) fun _ => .pure trivial
    · exact .pure trivial
  refine .andThen (.take _) fun keyword => .andThen hread fun bare => ?_
  refine .andThen (.meet (hname bare)) fun _ => .andThen .kind? fun k => ?_
  split
  · exact .andThen (.take none) fun _ => .pure (hs.withNamespace (hname bare))
  · refine .andThen (.paired _) fun body => ?_
    refine .bind (.enter hs (hname bare) (by simp) (by simp)) fun inner hinner => ?_
    exact .andThen (.take none) fun _ => .andThen (.within hinner _) fun _ => .pure hs
  · exact .fail _

theorem importsClasses_roots : Roots ts (fun _ => True) importsClasses := by
  refine .andThen .kind? fun k => ?_
  split
  · exact .andThen (.take none) fun _ => .pure trivial
  · exact .andThen (.take none) fun _ => .pure trivial
  · exact .pure trivial

theorem importedName_roots : Roots ts (fun _ => True) importedName := by
  refine .andThen (.take none) fun t => ?_
  split
  · exact .pure trivial
  · exact .fail _

theorem addImport_roots (hs : scope.Rooted) (name : String) (classes : Bool) :
    Roots ts Scope.Rooted (addImport scope name classes) := by
  have halias : Roots ts (fun _ => True) (importAlias name) := by
    refine .andThen (.accept _) fun taken => ?_
    split
    · exact .andThen (.take none) fun _ => .pure trivial
    · exact .pure trivial
  refine .andThen halias fun short => ?_
  split
  · exact .andThen (.meet trivial) fun _ => .pure (hs.withImport short (isAbsolute_append name))
  · exact .pure hs

theorem importGroup_roots (hs : scope.Rooted) (start : String) (classes : Bool) (bound : Nat) :
    Roots ts Scope.Rooted (importGroup start classes bound scope) := by
  induction bound generalizing scope with
  | zero => exact .throw _
  | succ bound ih =>
    refine .andThen .kind? fun k => ?_
    split
    · exact .andThen (.take none) fun _ => .pure hs
    · refine .andThen importsClasses_roots fun members => .andThen importedName_roots fun name => ?_
      exact .bind (addImport_roots hs _ _) fun next hnext => .andThen (.accept _) fun _ => ih hnext

theorem importItem_roots (hs : scope.Rooted) (classes : Bool) (bound : Nat) :
    Roots ts Scope.Rooted (importItem classes bound scope) := by
  refine .andThen importedName_roots fun name => .andThen (.accept _) fun grouped => ?_
  split
  · exact .andThen (.take _) fun _ => importGroup_roots hs _ _ _
  · exact addImport_roots hs _ _

theorem importList_roots (hs : scope.Rooted) (classes : Bool) (bound : Nat) :
    Roots ts Scope.Rooted (importList classes bound scope) := by
  induction bound generalizing scope with
  | zero => exact .throw _
  | succ bound ih =>
    refine .bind (importItem_roots hs _ _) fun next hnext => .andThen (.accept _) fun more => ?_
    split
    · exact ih hnext
    · exact .pure hnext

theorem useStatement_roots (hs : scope.Rooted) :
    Roots ts Scope.Rooted (useStatement scope) := by
  have htraits : Roots ts (fun _ => True) traitStatement := by
    refine .andThen (.take _) fun _ => .andThen (.skipTo _) fun _ => .andThen .current fun t => ?_
    split
    · exact .andThen (.paired _) fun _ => .jump _
    · exact .andThen (.take none) fun _ => .pure trivial
  have himports : Roots ts Scope.Rooted (importStatement scope) := by
    refine .andThen (.take _) fun _ => .andThen importsClasses_roots fun _ => ?_
    refine .andThen .read fun _ => .bind (importList_roots hs _ _) fun next hnext => ?_
    exact .andThen (.take _) fun _ => .pure hnext
  unfold useStatement
  split
  · exact .andThen htraits fun _ => .pure hs
  · exact himports
  · exact himports
  · exact .fail _

/-- A region is entered that brings no names with it. -/
theorem enter_roots (hs : scope.Rooted) (kind : ScopeKind) (closer : Option Nat) :
    Roots ts Scope.Rooted (enter scope { kind, closer }) :=
  .enter hs (.inl rfl) (by simp) (by simp)

theorem classStatement_roots (hs : scope.Rooted) (comment : Option DocComment) :
    Roots ts (fun _ => True) (classStatement b scope comment) := by
  refine .andThen .read fun us => .andThen .position fun i => .andThen .current fun keyword => ?_
  have hname : ∀ n ∈ (us.declaredName i).map scope.qualify, IsAbsolute n := by
    simpa using fun n _ => hs.qualify n
  have hresolved : ∀ names : List String, ∀ n ∈ names.map scope.resolve, IsAbsolute n := by
    simpa using fun _ n _ => hs.resolve n
  let heads := if keyword.kind = .interfaceKw then
      (none, (us.extendedNames i).map scope.resolve)
    else (((us.extendedNames i).map scope.resolve).head?,
      (us.implementedNames i).map scope.resolve)
  have hheads : (∀ n ∈ heads.1, IsAbsolute n) ∧ ∀ n ∈ heads.2, IsAbsolute n := by
    unfold heads
    split
    · exact ⟨by simp, hresolved _⟩
    · exact ⟨fun n hn => hresolved _ n (List.mem_of_head? hn), hresolved _⟩
  refine .andThen (.meet ⟨hname, hheads⟩) fun _ => .andThen (.paired _) fun body => ?_
  refine .andThen (.withinGroup hs _) fun _ => ?_
  refine .bind (.enter hs (.inl rfl) hname hheads.1) fun inner hinner => ?_
  have htemplates : ∀ c, (Visit.templates inner c).Rooted := fun _ => hinner
  have hbound : (b.run inner comment).Rooted := hinner.run b comment
  have hdocs : ∀ c, (Visit.classDocs (b.run inner comment) c).Rooted := fun _ => hbound
  refine .andThen (.meetWith htemplates _) fun _ => .andThen (.meetWith hdocs _) fun _ => ?_
  exact .andThen (.jump _) fun _ => .within hbound _

theorem functionStatement_roots (hs : scope.Rooted) (comment : Option DocComment) :
    Roots ts (fun _ => True) (functionStatement b scope comment) := by
  have hcapture : Roots ts (fun _ => True) captureList := by
    refine .andThen .kind? fun k => ?_
    split
    · refine .andThen (.take none) fun _ => .andThen .kind? fun k => ?_
      split
      · exact .andThen .current fun _ => .andThen (.paired _) fun _ => .jump _
      · exact .fail _
    · exact .pure trivial
  have hlast : ∀ kinds : List Kind, Roots ts (fun _ => True) (do
      skipTo kinds
      let _ ← take) :=
    fun kinds => .andThen (.skipTo kinds) fun _ => .andThen (.take none) fun _ => .pure trivial
  refine .andThen .read fun us => .andThen .position fun i => .andThen .current fun keyword => ?_
  refine .andThen (.meet trivial) fun _ => .bind (enter_roots hs _ _) fun inner hinner => ?_
  have htemplates : ∀ c, (Visit.templates inner c).Rooted := fun _ => hinner
  have hbound : (b.run inner comment).Rooted := hinner.run b comment
  refine .andThen (.meetWith htemplates _) fun _ => .andThen (.meet hbound) fun _ => ?_
  split
  · exact .throw _
  · refine .bind (enter_roots hbound _ _) fun listed hlisted => .andThen (.jump _) fun _ => ?_
    refine .andThen (.within hlisted _) fun _ => .andThen hcapture fun _ => ?_
    split
    · exact hlast _
    · split
      · exact hlast _
      · refine .bind (enter_roots hbound _ _) fun inside hinside => ?_
        exact .andThen (.jump _) fun _ => .within hinside _

theorem variableStatement_roots (hs : scope.Rooted) (comment : Option DocComment) :
    Roots ts (fun _ => True) (variableStatement scope comment) := by
  refine .andThen .read fun us => .andThen .position fun i => .andThen (.accept _) fun _ => ?_
  refine .andThen .position fun keyword => .andThen .kind? fun k => ?_
  dsimp only
  split
  · exact .throw _
  · refine .andThen (.meet trivial) fun _ => ?_
    split
    · exact .andThen (.meet hs) fun _ => .jump _
    · exact .jump _

theorem declaration_roots (hs : scope.Rooted) :
    Roots ts (fun _ => True) (declaration b scope) := by
  refine .andThen .read fun us => .andThen .position fun start => ?_
  dsimp only
  refine .andThen (.move _) fun _ => ?_
  split
  · split
    · have hcomment : ∀ c, (Visit.comment c).Rooted := fun _ => trivial
      refine .andThen (.meetWith hcomment _) fun _ => ?_
      split
      · exact classStatement_roots hs _
      · split
        · exact functionStatement_roots hs _
        · exact variableStatement_roots hs _
    · split
      · exact .andThen (.take none) fun _ => .pure trivial
      · exact .pure trivial
  · exact .pure trivial

/-- A statement keeps names absolute. -/
theorem statement_roots (b : Binder) (hs : scope.Rooted) :
    Roots ts Scope.Rooted (statement b scope) := by
  have hdeclare : Roots ts (fun _ => True) declareStatement := by
    refine .andThen (.take none) fun _ => .andThen .kind? fun k => ?_
    split
    · exact .andThen .current fun _ => .andThen (.paired _) fun _ => .jump _
    · exact .pure trivial
  refine .andThen .current fun t => ?_
  split
  · refine .andThen (.paired _) fun g => .andThen (.take none) fun _ => ?_
    refine .bind (enter_roots hs _ _) fun inner hinner => ?_
    exact .andThen (.within hinner _) fun _ => .pure hs
  · exact .fail _
  · exact namespaceStatement_roots hs
  · exact useStatement_roots hs
  · exact .andThen hdeclare fun _ => .pure hs
  · exact .andThen (.paired _) fun g => .andThen (.jump _) fun _ => .pure hs
  · split
    · exact .andThen (declaration_roots hs) fun _ => .pure hs
    · exact .andThen (.take none) fun _ => .pure hs

/-- What a statement notes is rooted, and so is the scope after it. -/
theorem outcome_rooted (b : Binder) (ts : Tokens) (hs : scope.Rooted) (i : Nat) :
    (∀ x ∈ (outcome b ts scope i).items, x.Rooted) ∧
      ∀ next, (outcome b ts scope i).result = .ok next → next.Rooted := by
  obtain ⟨hgood, hbad⟩ := outcome_of_holds (statement_roots b hs ⟨i, []⟩ (by simp))
  refine ⟨?_, fun next hnext => (hgood next hnext).1⟩
  cases hr : (outcome b ts scope i).result with
  | ok next => exact (hgood next hr).2
  | error e => exact hbad e hr

theorem Reaches.rooted {i stop : Nat} (h : Reaches b ts scope i stop) : scope.Rooted := by
  induction h with
  | file => exact Scope.rooted_file
  | step _ _ _ result ih => exact (outcome_rooted b ts ih _).2 _ result
  | fault _ _ _ _ ih => exact ih
  | region _ _ _ mem ih => exact (outcome_rooted b ts ih _).1 _ mem

theorem rooted_of_mem_walk (bound : Nat) (hs : scope.Rooted) (i stop : Nat) :
    ∀ v ∈ walk b ts bound scope i stop, v.Rooted := by
  induction bound generalizing scope i stop with
  | zero => simp [walk]
  | succ bound ih =>
    obtain ⟨hitems, hnext⟩ := outcome_rooted b ts hs i
    have hmet : ∀ v ∈ (outcome b ts scope i).items.flatMap (Item.met (walk b ts bound)),
        v.Rooted := by
      intro v hv
      obtain ⟨x, hx, hv⟩ := List.mem_flatMap.mp hv
      cases x with
      | visit w => exact List.mem_singleton.mp hv ▸ hitems _ hx
      | region inner start last => exact ih (hitems _ hx) start last v hv
    rw [walk]
    split
    · simp
    · cases hr : (outcome b ts scope i).result with
      | ok next =>
        simp only [hr]
        exact List.forall_mem_append.mpr ⟨hmet, ih (hnext next hr) _ _⟩
      | error e =>
        simp only [hr]
        exact List.forall_mem_append.mpr
          ⟨hmet, List.forall_mem_cons.mpr ⟨trivial, ih hs _ _⟩⟩

end
end Outline

structure ClassEntry.Rooted (a : ClassEntry) : Prop where
  extended : ∀ n ∈ a.extended, IsAbsolute n
  implemented : ∀ n ∈ a.implemented, IsAbsolute n

theorem ClassEntry.Rooted.parents {a : ClassEntry} (h : a.Rooted) :
    ∀ p ∈ a.parents, IsAbsolute p := by
  intro p hp
  unfold ClassEntry.parents at hp
  split at hp
  · next name hname =>
    split at hp
    · exact h.implemented p hp
    · rcases List.mem_cons.mp hp with rfl | hp
      · exact h.extended p hname
      · exact h.implemented p hp
  · exact h.implemented p hp

theorem Visit.rooted_hierarchy {vs : List Visit} (h : ∀ v ∈ vs, v.Rooted) :
    ∀ r ∈ Visit.hierarchy vs, IsAbsolute r.1 ∧ r.2.Rooted := by
  have hentry : ∀ e ∈ vs.filterMap Visit.classEntry?, IsAbsolute e.1 ∧ e.2.Rooted := by
    intro e he
    obtain ⟨v, hv, hve⟩ := List.mem_filterMap.mp he
    have hroot := h v hv
    unfold classEntry? at hve
    split at hve
    · cases hve
      exact ⟨hroot.1 _ rfl, hroot.2.1, hroot.2.2⟩
    · cases hve
  have hfold : ∀ (es : List (String × ClassEntry)) (known : Hierarchy),
      (∀ e ∈ es, IsAbsolute e.1 ∧ e.2.Rooted) → (∀ r ∈ known, IsAbsolute r.1 ∧ r.2.Rooted) →
      ∀ r ∈ es.foldl (fun h a => Bindings.bind a.1 a.2 h) known, IsAbsolute r.1 ∧ r.2.Rooted := by
    intro es
    induction es with
    | nil => exact fun known _ hk => hk
    | cons e es ih =>
      intro known hes hk
      obtain ⟨he, hes⟩ := List.forall_mem_cons.mp hes
      refine ih _ hes fun r hr => ?_
      rcases Bindings.mem_bind hr with rfl | hr
      · exact he
      · exact hk r hr
  exact hfold _ [] hentry (by simp)

open Outline in
/-- Names are absolute wherever a walk over a file gets, whatever templates it binds: the namespace
of a scope may be empty, and no other name is relative. So are the names of the classes that are
found, and what they extend and implement; and with these classes the supertypes of every name are
computed in the end. -/
theorem names_absolute (source : String) :
    (∀ b scope i stop, Reaches b (tokenize source) scope i stop → scope.Rooted) ∧
    (∀ b, ∀ v ∈ visits b (tokenize source), v.Rooted) ∧
    (∀ r ∈ Visit.hierarchy (visits .none (tokenize source)), IsAbsolute r.1 ∧ r.2.Rooted) ∧
    ∀ base supers,
      Hierarchy.Computes (Visit.hierarchy (visits .none (tokenize source))).rows base supers ↔
        supers = (Visit.hierarchy (visits .none (tokenize source))).superTypes base := by
  have hvisits : ∀ b, ∀ v ∈ visits b (tokenize source), v.Rooted :=
    fun b => rooted_of_mem_walk _ Scope.rooted_file _ _
  have hclasses := Visit.rooted_hierarchy (hvisits .none)
  have habs : (Visit.hierarchy (visits .none (tokenize source))).Absolute :=
    fun r hr => ⟨(hclasses r hr).1, (hclasses r hr).2.parents⟩
  exact ⟨fun b scope i stop h => h.rooted, hvisits, hclasses, habs.computes_iff⟩

end PhpDoc
