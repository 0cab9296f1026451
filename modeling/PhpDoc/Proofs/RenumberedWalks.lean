import PhpDoc.Proofs.Recovery
import PhpDoc.Proofs.RenumberedStatements
/-!
The walk over a file whose tokens are numbered anew. As long as the templates of the comments met are
bound alike, it meets what the walk over the file before meets.
-/
namespace PhpDoc.Outline
open Step

namespace Renumbering
variable {ts ts' : Tokens} {α β γ δ : Type} {ρ : Renumbering ts ts'} {R : α → β → Prop}
  {S : γ → δ → Prop} {b b' : Binder} {s : Scope} {c c' : Option DocComment} {i : Nat}

/-- What is noted stays so. -/
theorem onward_mem (item : Item) : Onward ts fun p => item ∈ p.items where
  move _ _ h _ _ := h
  meet _ _ h _ := List.mem_append_left _ h

theorem mem_of_keeps {item : Item} {x : Step α} {p : Progress}
    (h : Keeps ts (fun p => item ∈ p.items) x) (hp : item ∈ p.items) :
    item ∈ (((x.run ts).run).run p).2.items := by
  have hkept := h p hp
  unfold Step.Holds at hkept
  split at hkept <;> (rename_i heq; rw [heq]; exact hkept)

section
variable {item : Item}

theorem keeps_jump (i : Nat) : Keeps ts (fun p => item ∈ p.items) (jump i) :=
  fun _ h => h

theorem keeps_meet (v : Visit) : Keeps ts (fun p => item ∈ p.items) (meet v) :=
  fun _ h => List.mem_append_left _ h

theorem keeps_within (s : Scope) (stop : Nat) : Keeps ts (fun p => item ∈ p.items) (within s stop) :=
  fun _ h => List.mem_append_left _ h

theorem keeps_enter (s : Scope) (r : Region) : Keeps ts (fun p => item ∈ p.items) (enter s r) :=
  fun _ h => holds_enter (fun _ _ => h) fun _ _ => h

theorem keeps_captureList : Keeps ts (fun p => item ∈ p.items) captureList := by
  refine .bind .kind? fun k => ?_
  split
  · refine .bind (.take (onward_mem item) none) fun _ => .bind .kind? fun k => ?_
    split
    · refine .bind (fun _ h => holds_current (fun _ _ => h) fun _ => h) fun t => ?_
      exact .bind (fun _ h => holds_paired (fun _ _ => h) fun _ => h) fun g => keeps_jump _
    · exact .fail _
  · exact .pure _

end

def Agrees (ρ : Renumbering ts ts') (b b' : Binder) : Item → Prop
  | .visit (.templates s c) => ∀ c', ρ.related c c' → b' (s.renumber ρ.number) c' = b s c
  | _ => True

/-- Steps that correspond if all that is noted in the end is as it should be. -/
def CarriesIf (ρ : Renumbering ts ts') (P : Item → Prop) (R : α → β → Prop) (x : Step α)
    (y : Step β) : Prop :=
  ∀ p q, ρ.ProgressBecomes p q → (∀ item ∈ (((x.run ts).run).run p).2.items, P item) →
    ρ.Corresponds R (((x.run ts).run).run p) (((y.run ts').run).run q)

section
variable {P : Item → Prop}

theorem Carries.carriesIf {x : Step α} {y : Step β} (h : ρ.Carries R x y) : ρ.CarriesIf P R x y :=
  fun p q hpq _ => h p q hpq

theorem Carries.bindIf {x : Step α} {y : Step β} {f : α → Step γ} {g : β → Step δ}
    (h : ρ.Carries R x y) (hfg : ∀ a b, R a b → ρ.CarriesIf P S (f a) (g b)) :
    ρ.CarriesIf P S (x >>= f) (y >>= g) := by
  intro p q hpq hnoted
  have hxy := h p q hpq
  simp only [ReaderT.run_bind, ExceptT.run_bind, StateT.run_bind] at hnoted ⊢
  generalize ((x.run ts).run).run p = r at hxy hnoted ⊢
  generalize ((y.run ts').run).run q = r' at hxy ⊢
  cases hxy with
  | ok hab hpq => exact hfg _ _ hab _ _ hpq hnoted
  | error he hpq => exact .error he hpq

/-- A last step that notes nothing. -/
theorem CarriesIf.yield {x : Step α} {y : Step β} {a : γ} {b : δ} (h : ρ.CarriesIf P R x y)
    (hab : S a b) : ρ.CarriesIf P S (x >>= fun _ => pure a) (y >>= fun _ => pure b) := by
  intro p q hpq hnoted
  have hxy := h p q hpq
  simp only [ReaderT.run_bind, ExceptT.run_bind, StateT.run_bind] at hnoted ⊢
  generalize ((x.run ts).run).run p = r at hxy hnoted ⊢
  generalize ((y.run ts').run).run q = r' at hxy ⊢
  obtain ⟨_ | _, r⟩ := r
  all_goals cases hxy hnoted
  · exact .error ‹_› ‹_›
  · exact .ok hab ‹_›

/-- Something noted, with steps after it that rely on it and do not take it back. -/
theorem CarriesIf.meeting {v v' : Visit} {f : Unit → Step γ} {g : Unit → Step δ}
    (hv : v.Becomes ρ.number ρ.related v')
    (hkeeps : Keeps ts (fun p => .visit v ∈ p.items) (f ()))
    (h : P (.visit v) → ρ.CarriesIf P S (f ()) (g ())) :
    ρ.CarriesIf P S (meet v >>= f) (meet v' >>= g) := by
  intro p q hpq hnoted
  have hmem : .visit v ∈ ((((meet v >>= f).run ts).run).run p).2.items :=
    mem_of_keeps (p := { p with items := p.items ++ [.visit v] }) hkeeps
      (List.mem_append_right _ List.mem_cons_self)
  exact h (hnoted _ hmem) _ _ (hpq.note (.visit hv)) hnoted

end

theorem classStatement_carries (s : Scope) (hc : Option.Rel ρ.related c c') :
    ρ.CarriesIf (ρ.Agrees b b') Eq (classStatement b s c)
      (classStatement b' (s.renumber ρ.number) c') := by
  refine Carries.read.bindIf fun us us' hus => ?_
  rw [hus.1, hus.2]
  refine Carries.position.bindIf ?_
  rintro i _ ⟨hi, rfl⟩
  have hkeeps := ρ.keeps_of_settled hi
  refine Carries.current.bindIf fun keyword keyword' hkeyword => ?_
  rw [ρ.renumbers.declaredName_eq hkeeps, ρ.renumbers.extendedNames_eq hkeeps,
    ρ.renumbers.implementedNames_eq hkeeps, hkeyword.kind, Scope.qualify_renumber,
    Scope.resolve_renumber]
  extract_lets name extended implemented
  generalize (if keyword.kind = .interfaceKw then (none, extended)
    else (extended.head?, implemented)) = heirs
  obtain ⟨parent, interfaces⟩ := heirs
  refine (Carries.meet (.classLike _ _ _)).bindIf fun _ _ _ => ?_
  refine (Carries.paired hkeyword.body fun g hg => hkeyword.anchored g (.inr (.inr hg))).bindIf ?_
  rintro body _ ⟨rfl, hbody⟩
  refine (Carries.withinGroup s hkeyword.parameters fun g hg =>
    hkeyword.anchored g (.inr (.inl hg))).bindIf fun _ _ _ => ?_
  refine (Carries.enter s ⟨.classLike, some body.closer, name, parent, ""⟩
    fun i hi => by cases hi; exact hbody.closer).bindIf ?_
  rintro inner _ rfl
  have hrest : ∀ inner : Scope, ρ.Carries Eq (do jump (body.opener + 1); within inner body.closer)
      (do jump (ρ.number body.opener + 1)
          within (inner.renumber ρ.number) (ρ.number body.closer)) := fun inner =>
    (Carries.jump_past (Nat.lt_trans hbody.lt hbody.lt_size) hbody.opener).next fun _ =>
      .within inner hbody.lt_size hbody.closer
  cases hc with
  | none => exact (hrest inner).carriesIf
  | @some c c' hc =>
    refine .meeting (.templates inner hc) ?_ fun hagrees => ?_
    · exact .bind (keeps_meet _) fun _ => .bind (keeps_jump _) fun _ => keeps_within _ _
    · have hrun : b'.run (inner.renumber ρ.number) (some c') =
          (b.run inner (some c)).renumber ρ.number := by
        simp only [Binder.run, hagrees c' hc]
        rfl
      rw [hrun]
      exact ((Carries.meet (.classDocs _ hc)).next fun _ => hrest _).carriesIf

def functionRest (inner : Scope) (i : Nat) (name : Option String) (comment : Option DocComment)
    (keyword : Token) : Step Unit := do
  meet (.functionDocs inner i name comment)
  match keyword.parameters with
  | none => throw ⟨.missingParameters, some i⟩
  | some parameters =>
    let listed ← enter inner { kind := .parameters, closer := some parameters.closer }
    jump (parameters.opener + 1)
    within listed parameters.closer
    captureList
    if keyword.kind = .fnKw then
      skipTo [.doubleArrow]
      let _ ← take
    else
      match keyword.body with
      | none =>
        skipTo [.semicolon]
        let _ ← take
      | some body =>
        let inside ← enter inner { kind := .other, closer := some body.closer }
        jump (body.opener + 1)
        within inside body.closer

theorem functionRest_carries (inner : Scope) (hi : ts.Settled i) (name : Option String)
    (hc : Option.Rel ρ.related c c') {keyword keyword' : Token} (hk : ρ.Stands keyword keyword') :
    ρ.Carries Eq (functionRest inner i name c keyword)
      (functionRest (inner.renumber ρ.number) (ρ.number i) name c' keyword') := by
  have hkeeps := ρ.keeps_of_settled hi
  -- a group that is entered with a scope of its own
  have hgroup : ∀ (kind : ScopeKind) (g : Group), ρ.Anchors g → ρ.Carries Eq
      (do let listed ← enter inner { kind, closer := some g.closer }
          jump (g.opener + 1)
          within listed g.closer)
      (do let listed ← enter (inner.renumber ρ.number) { kind, closer := some (ρ.number g.closer) }
          jump (ρ.number g.opener + 1)
          within listed (ρ.number g.closer)) := by
    intro kind g hg
    refine (Carries.enter inner { kind, closer := some g.closer } fun i hi => by
      cases hi; exact hg.closer).bind ?_
    rintro listed _ rfl
    exact (Carries.jump_past (Nat.lt_trans hg.lt hg.lt_size) hg.opener).next fun _ =>
      .within listed hg.lt_size hg.closer
  refine (Carries.meet (.functionDocs inner name hkeeps hc)).next fun _ => ?_
  rw [hk.parameters, hk.kind, hk.body]
  cases hparameters : keyword.parameters with
  | none => exact .throw (e := ⟨.missingParameters, some i⟩) fun j hj => by cases hj; exact hkeeps
  | some parameters =>
    have hanchors := hk.anchored parameters (.inr (.inl hparameters))
    refine (Carries.enter inner { kind := .parameters, closer := some parameters.closer }
      fun i hi => by cases hi; exact hanchors.closer).bind ?_
    rintro listed _ rfl
    refine (Carries.jump_past (Nat.lt_trans hanchors.lt hanchors.lt_size)
      hanchors.opener).next fun _ => (Carries.within listed hanchors.lt_size
      hanchors.closer).next fun _ => Carries.captureList.next fun _ => ?_
    split
    · exact (Carries.skipTo _ (by decide)).next fun _ => (Carries.take none).bind fun _ _ _ =>
        .pure rfl
    · cases hbody : keyword.body with
      | none =>
        exact (Carries.skipTo _ (by decide)).next fun _ => (Carries.take none).bind fun _ _ _ =>
          .pure rfl
      | some body => exact hgroup .other body (hk.anchored body (.inr (.inr hbody)))

theorem functionRest_keeps {item : Item} (inner : Scope) (i : Nat) (name : Option String)
    (comment : Option DocComment) (keyword : Token) :
    Keeps ts (fun p => item ∈ p.items) (functionRest inner i name comment keyword) := by
  have hskip : ∀ kinds, Keeps ts (fun p => item ∈ p.items) (do skipTo kinds; let _ ← take) :=
    fun kinds => .bind (.skipTo (onward_mem item) kinds) fun _ =>
      .bind (.take (onward_mem item) none) fun _ => .pure ()
  refine .bind (keeps_meet _) fun _ => ?_
  cases keyword.parameters with
  | none => exact .throw _
  | some parameters =>
    refine .bind (keeps_enter _ _) fun listed => .bind (keeps_jump _) fun _ =>
      .bind (keeps_within _ _) fun _ => .bind keeps_captureList fun _ => ?_
    split
    · exact hskip _
    · cases keyword.body with
      | none => exact hskip _
      | some body =>
        exact .bind (keeps_enter _ _) fun inside => .bind (keeps_jump _) fun _ => keeps_within _ _

theorem functionStatement_carries (s : Scope) (hc : Option.Rel ρ.related c c') :
    ρ.CarriesIf (ρ.Agrees b b') Eq (functionStatement b s c)
      (functionStatement b' (s.renumber ρ.number) c') := by
  refine Carries.read.bindIf fun us us' hus => ?_
  rw [hus.1, hus.2]
  refine Carries.position.bindIf ?_
  rintro i _ ⟨hi, rfl⟩
  refine Carries.current.bindIf fun keyword keyword' hkeyword => ?_
  rw [ρ.renumbers.declaredName_eq (ρ.keeps_of_settled hi)]
  refine (Carries.meet (.function _)).bindIf fun _ _ _ => ?_
  have hcloser : keyword'.body.map (·.closer) = (keyword.body.map (·.closer)).map ρ.number := by
    rw [hkeyword.body]
    cases keyword.body <;> rfl
  rw [hcloser]
  refine (Carries.enter s { kind := .function, closer := keyword.body.map (·.closer) }
    fun i hi => ?_).bindIf ?_
  · obtain ⟨g, hg, rfl⟩ := Option.map_eq_some_iff.mp hi
    exact (hkeyword.anchored g (.inr (.inr hg))).closer
  rintro inner _ rfl
  have hrest : ∀ inner : Scope, ρ.Carries Eq (functionRest inner i (ts.declaredName i) c keyword)
      (functionRest (inner.renumber ρ.number) (ρ.number i) (ts.declaredName i) c' keyword') :=
    fun inner => functionRest_carries inner hi _ hc hkeyword
  cases hc with
  | none => exact (hrest inner).carriesIf
  | @some c c' hc =>
    refine .meeting (f := fun _ => functionRest (b.run inner (some c)) i (ts.declaredName i) (some c)
      keyword) (.templates inner hc) (functionRest_keeps _ _ _ _ _) fun hagrees => ?_
    have hrun : b'.run (inner.renumber ρ.number) (some c') =
        (b.run inner (some c)).renumber ρ.number := by
      simp only [Binder.run, hagrees c' hc]
      rfl
    rw [hrun]
    exact (hrest _).carriesIf

theorem declaration_carries (s : Scope) : ρ.CarriesIf (ρ.Agrees b b') Eq (declaration b s)
    (declaration b' (s.renumber ρ.number)) := by
  refine Carries.read.bindIf fun us us' hus => ?_
  rw [hus.1, hus.2]
  refine Carries.position.bindIf ?_
  rintro start _ ⟨hstart, rfl⟩
  have hsettled := settled_afterModifiers hstart
  rw [ρ.afterModifiers_eq hstart]
  generalize afterModifiers ts start = r at hsettled ⊢
  obtain ⟨i, late⟩ := r
  have hi := ρ.keeps_of_settled hsettled
  refine (Carries.move hsettled).bindIf fun _ _ _ => ?_
  cases late with
  | true => exact (Carries.pure rfl).carriesIf
  | false =>
    simp only [Bool.not_false, if_true, ρ.renumbers.kind?_eq hi, Scope.kind_renumber]
    split
    · have hcomment := ρ.before start hstart.le
      refine (Carries.meetWith (fun _ _ => .comment) hcomment).bindIf fun _ _ _ => ?_
      split
      · exact classStatement_carries s hcomment
      · split
        · exact functionStatement_carries s hcomment
        · exact (Carries.variableStatement s hcomment).carriesIf
    · simp only [ρ.number_inj hi (ρ.keeps_of_settled hstart)]
      split
      · exact ((Carries.take none).bind fun _ _ _ => .pure rfl).carriesIf
      · exact (Carries.pure rfl).carriesIf

theorem statement_carries (b b' : Binder) (s : Scope) : ρ.CarriesIf (ρ.Agrees b b') ρ.Scoped
    (statement b s) (statement b' (s.renumber ρ.number)) := by
  refine Carries.current.bindIf fun t t' ht => ?_
  rw [ht.kind]
  split
  · refine Carries.carriesIf ((Carries.paired ht.group fun g hg => ht.anchored g (.inl hg)).bind ?_)
    rintro g _ ⟨rfl, hg⟩
    refine (Carries.take none).bind fun _ _ _ => (Carries.enter s
      { kind := .other, closer := some g.closer } fun i hi => by cases hi; exact hg.closer).bind ?_
    rintro inner _ rfl
    exact (Carries.within inner hg.lt_size hg.closer).next fun _ => .pure rfl
  · exact (Carries.fail _).carriesIf
  · exact (Carries.namespaceStatement s).carriesIf
  · exact (Carries.useStatement s).carriesIf
  · exact Carries.carriesIf (Carries.declareStatement.next fun _ => .pure rfl)
  · refine Carries.carriesIf ((Carries.paired ht.group fun g hg => ht.anchored g (.inl hg)).bind ?_)
    rintro g _ ⟨rfl, hg⟩
    exact (Carries.jump_past hg.lt_size hg.closer).next fun _ => .pure rfl
  · split
    · exact (declaration_carries s).yield rfl
    · exact Carries.carriesIf ((Carries.take none).bind fun _ _ _ => .pure rfl)

theorem settled_recover (hm : ts.Marked) (stop : Nat) {j : Nat} (hj : j ≤ ts.size)
    (hi : i < ts.size) : ts.Settled (recover ts stop i j) :=
  Tokens.settled_atOrAfter (resume_le_size hm (by omega))

structure OutcomeBecomes (ρ : Renumbering ts ts') (o o' : Outcome) : Prop where
  progress : ρ.ProgressBecomes ⟨o.position, o.items⟩ ⟨o'.position, o'.items⟩
  ok : ∀ next, o.result = .ok next → o'.result = .ok (next.renumber ρ.number)
  error : ∀ e, o.result = .error e →
    o'.result = .error (e.renumber ρ.number) ∧ ∀ i ∈ e.place, KeepsPlace ρ.number i

theorem outcome_becomes (hi : ts.Settled i)
    (hagrees : ∀ item ∈ (outcome b ts s i).items, ρ.Agrees b b' item) :
    ρ.OutcomeBecomes (outcome b ts s i) (outcome b' ts' (s.renumber ρ.number) (ρ.number i)) := by
  have hruns := statement_carries b b' s ⟨i, []⟩ ⟨ρ.number i, []⟩ ⟨rfl, hi, .nil⟩ hagrees
  unfold outcome
  generalize (((statement b s).run ts).run).run ⟨i, []⟩ = r at hruns ⊢
  generalize (((statement b' (s.renumber ρ.number)).run ts').run).run ⟨ρ.number i, []⟩ = r' at hruns ⊢
  cases hruns with
  | ok hnext hpq =>
    refine ⟨hpq, fun next he => ?_, nofun⟩
    cases he
    exact congrArg Except.ok hnext
  | error he hpq =>
    refine ⟨hpq, nofun, fun e he' => ?_⟩
    cases he'
    exact ⟨rfl, he⟩

/-- What is met in items of one file and of the other. -/
theorem met_becomes {inside inside' : Scope → Nat → Nat → List Visit} {items items' : List Item}
    (hitems : List.Forall₂ ρ.ItemBecomes items items')
    (hinside : ∀ inner start stop, .region inner start stop ∈ items → ts.Settled start →
      KeepsPlace ρ.number stop → List.Forall₂ (Visit.Becomes ρ.number ρ.related)
        (inside inner start stop)
        (inside' (inner.renumber ρ.number) (ρ.number start) (ρ.number stop))) :
    List.Forall₂ (Visit.Becomes ρ.number ρ.related) (items.flatMap (Item.met inside))
      (items'.flatMap (Item.met inside')) := by
  induction hitems with
  | nil => exact .nil
  | cons hitem _ ih =>
    rw [List.flatMap_cons, List.flatMap_cons]
    refine List.rel_append ?_ (ih fun inner start stop h => hinside inner start stop (.tail _ h))
    cases hitem with
    | visit hv => exact .cons hv .nil
    | region inner hstart hstop => exact hinside inner _ _ (.head _) hstart hstop

/-- A statement and what is met in it, if the walks over the regions it enters correspond. -/
theorem statement_met_becomes {inside inside' : Scope → Nat → Nat → List Visit} (hi : ts.Settled i)
    (hagrees : ∀ v ∈ (outcome b ts s i).items.flatMap (Item.met inside), ρ.Agrees b b' (.visit v))
    (hinside : ∀ inner start stop, .region inner start stop ∈ (outcome b ts s i).items →
      ts.Settled start → KeepsPlace ρ.number stop →
      (∀ v ∈ inside inner start stop, ρ.Agrees b b' (.visit v)) →
      List.Forall₂ (Visit.Becomes ρ.number ρ.related) (inside inner start stop)
        (inside' (inner.renumber ρ.number) (ρ.number start) (ρ.number stop))) :
    ρ.OutcomeBecomes (outcome b ts s i)
        (outcome b' ts' (s.renumber ρ.number) (ρ.number i)) ∧
      List.Forall₂ (Visit.Becomes ρ.number ρ.related)
        ((outcome b ts s i).items.flatMap (Item.met inside))
        ((outcome b' ts' (s.renumber ρ.number) (ρ.number i)).items.flatMap (Item.met inside')) := by
  have hmet : ∀ item ∈ (outcome b ts s i).items, ∀ v ∈ Item.met inside item,
      ρ.Agrees b b' (.visit v) := fun item hitem v hv =>
    hagrees v (List.mem_flatMap.mpr ⟨item, hitem, hv⟩)
  have hbecomes : ρ.OutcomeBecomes (outcome b ts s i)
      (outcome b' ts' (s.renumber ρ.number) (ρ.number i)) := outcome_becomes hi fun item hitem => by
    cases item with
    | visit v => exact hmet _ hitem v (List.mem_singleton.mpr rfl)
    | region => exact trivial
  exact ⟨hbecomes, met_becomes hbecomes.progress.items fun inner start stop hmem hstart hstop =>
    hinside inner start stop hmem hstart hstop (hmet _ hmem)⟩

/-- The walks over both files end at corresponding places. -/
theorem ended_iff {stop : Nat} (hi : KeepsPlace ρ.number i) :
    (ts'.size ≤ ρ.number i ∨ ρ.number stop ≤ ρ.number i) ↔ (ts.size ≤ i ∨ stop ≤ i) := by
  rw [← Nat.not_lt, ← Nat.not_lt, ρ.renumbers.lt_size_iff hi, ρ.renumbers.lt_iff hi, Nat.not_lt,
    Nat.not_lt]

/-- The walk over the other file meets what corresponds. -/
theorem walk_becomes (hm' : ts'.Marked) {bound bound' stop : Nat} (hbound : ts.size - i < bound)
    (hbound' : ts'.size - ρ.number i < bound') (hi : ts.Settled i) (hstop : KeepsPlace ρ.number stop)
    (hagrees : ∀ v ∈ walk b ts bound s i stop, ρ.Agrees b b' (.visit v)) :
    List.Forall₂ (Visit.Becomes ρ.number ρ.related) (walk b ts bound s i stop)
      (walk b' ts' bound' (s.renumber ρ.number) (ρ.number i) (ρ.number stop)) := by
  induction bound generalizing bound' s i stop with
  | zero => omega
  | succ bound ih =>
    obtain ⟨bound', rfl⟩ : ∃ n, bound' = n + 1 := ⟨bound' - 1, by omega⟩
    have hkeeps := ρ.keeps_of_settled hi
    rw [walk] at hagrees
    rw [walk, walk]
    by_cases hdone : ts.size ≤ i ∨ stop ≤ i
    · rw [if_pos hdone, if_pos ((ended_iff hkeeps).mpr hdone)]
      exact .nil
    have hdone' := mt (ended_iff hkeeps).mp hdone
    rw [if_neg hdone] at hagrees
    rw [if_neg hdone, if_neg hdone']
    obtain ⟨hregions, hends, hfails⟩ := statement_proceeds ρ.marked b s i
    obtain ⟨hregions', hends', hfails'⟩ :=
      statement_proceeds hm' b' (s.renumber ρ.number) (ρ.number i)
    have hall : ∀ v ∈ (outcome b ts s i).items.flatMap (Item.met (walk b ts bound)),
        ρ.Agrees b b' (.visit v) := by
      intro v hv
      refine hagrees v ?_
      simp only
      split <;> exact List.mem_append_left _ hv
    have hinside : ∀ inner start stop, .region inner start stop ∈ (outcome b ts s i).items →
        ts.Settled start → KeepsPlace ρ.number stop →
        (∀ v ∈ walk b ts bound inner start stop, ρ.Agrees b b' (.visit v)) →
        List.Forall₂ (Visit.Becomes ρ.number ρ.related) (walk b ts bound inner start stop)
          (walk b' ts' bound' (inner.renumber ρ.number) (ρ.number start) (ρ.number stop)) := by
      intro inner start stop hmem hstart hstop hinner
      have hlater := (hregions inner start stop hmem).1
      have hlater' := (ρ.renumbers.lt_iff hkeeps).mpr hlater
      exact ih (by omega) (by omega) hstart hstop hinner
    obtain ⟨hbecomes, hmet⟩ := statement_met_becomes hi hall hinside
    have hposition := hbecomes.progress.position
    simp only at hposition ⊢
    cases hr : (outcome b ts s i).result with
    | ok next =>
      simp only [hr] at hagrees ⊢
      have hnext := hbecomes.ok next hr
      have hlater := hends next hr
      have hlater' := hends' _ hnext
      rw [hnext]
      simp only [hposition] at hlater' ⊢
      refine List.rel_append hmet (ih (by omega) (by omega) hbecomes.progress.settled hstop ?_)
      exact fun v hv => hagrees v (List.mem_append_right _ hv)
    | error e =>
      simp only [hr] at hagrees ⊢
      obtain ⟨he, hplace⟩ := hbecomes.error e hr
      have hlater := hfails e stop hr
      have hlater' := hfails' _ (ρ.number stop) he
      rw [he]
      simp only [hposition, ρ.recover_eq stop hi] at hlater' ⊢
      refine List.rel_append hmet (.cons (.fault e hplace) (ih (by omega) (by omega) ?_ hstop ?_))
      · exact settled_recover ρ.marked stop hbecomes.progress.settled.le
          (Nat.lt_of_not_le fun h => hdone (.inl h))
      · exact fun v hv => hagrees v (List.mem_append_right _ (.tail _ hv))

/-- The walk over the whole file. -/
theorem visits_becomes (ρ : Renumbering ts ts') (hm' : ts'.Marked)
    (hagrees : ∀ v ∈ visits b ts, ρ.Agrees b b' (.visit v)) :
    List.Forall₂ (Visit.Becomes ρ.number ρ.related) (visits b ts) (visits b' ts') := by
  have hstart : ts.Settled (ts.atOrAfter 0) := Tokens.settled_atOrAfter (Nat.zero_le _)
  have hbound : ts.size - ts.atOrAfter 0 < ts.size + 1 := by omega
  have hbound' : ts'.size - ρ.number (ts.atOrAfter 0) < ts'.size + 1 := by omega
  have hwalk := walk_becomes hm' hbound hbound' hstart
    (ρ.renumbers.succ_of_size_le (Nat.le_refl _)) hagrees
  rwa [← ρ.renumbers.atOrAfter_eq, ρ.renumbers.zero, ρ.renumbers.size] at hwalk

/-- The classes that are declared are the same. -/
theorem hierarchy_eq (ρ : Renumbering ts ts') (hm' : ts'.Marked) :
    Visit.hierarchy (visits .none ts') = Visit.hierarchy (visits .none ts) := by
  have hnone : ∀ v, ρ.Agrees .none .none (.visit v) := by
    intro v
    cases v <;> first | exact trivial | exact fun _ _ => rfl
  have hentries : ∀ {vs vs' : List Visit}, List.Forall₂ (Visit.Becomes ρ.number ρ.related) vs vs' →
      vs'.filterMap Visit.classEntry? = vs.filterMap Visit.classEntry? := by
    intro vs vs' h
    induction h with
    | nil => rfl
    | cons hv _ ih =>
      rw [List.filterMap_cons, List.filterMap_cons, ih]
      cases hv <;> rfl
  rw [Visit.hierarchy, Visit.hierarchy, hentries (ρ.visits_becomes hm' fun v _ => hnone v)]

end Renumbering
end PhpDoc.Outline
