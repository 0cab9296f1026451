import PhpDoc.Outline.Walk
import PhpDoc.Proofs.Steps
/-!
Two runs of a statement that match. Templates and comments tell what there is to check, but not
where a statement ends: with others, a statement comes to the same position and the same fault, and
leaves a scope that differs in the templates alone.
-/
namespace PhpDoc

def Scope.bare (s : Scope) : Scope :=
  { s with templates := [] }

abbrev Scope.Alike (s s' : Scope) : Prop :=
  s.bare = s'.bare

namespace Scope
variable {s s' : Scope}

theorem kind_eq (h : s.Alike s') : s.kind = s'.kind :=
  show s.bare.kind = s'.bare.kind by rw [h]

theorem closer_eq (h : s.Alike s') : s.closer = s'.closer :=
  show s.bare.closer = s'.bare.closer by rw [h]

theorem qualify_eq (h : s.Alike s') : s.qualify = s'.qualify :=
  show s.bare.qualify = s'.bare.qualify by rw [h]

theorem resolve_eq (h : s.Alike s') : s.resolve = s'.resolve :=
  show s.bare.resolve = s'.bare.resolve by rw [h]

theorem bare_withNamespace (h : s.Alike s') (name : String) :
    (s.withNamespace name).bare = (s'.withNamespace name).bare :=
  congrArg (·.withNamespace name) h

theorem bare_withImport (h : s.Alike s') (short name : String) :
    (s.withImport short name).bare = (s'.withImport short name).bare :=
  congrArg (·.withImport short name) h

/-- A region is entered with its templates and without them alike. -/
theorem bare_enter (s : Scope) (r : Region) : s.bare.enter r = (s.enter r).map bare := by
  unfold enter
  change (if s.kind.nested.contains r.kind then _ else _) = _
  split
  · cases hk : r.kind <;> rfl
  · rfl

theorem bare_run (b : Binder) (s : Scope) (c : Option DocComment) : (b.run s c).bare = s.bare := by
  cases c <;> rfl

end Scope

def Visit.isPlain : Visit → Bool
  | .nameSpace _ | .imported _ _ | .classLike _ _ _ | .function _ | .declared _ | .fault _ => true
  | _ => false

namespace Outline

def Item.bare : Item → Option Item
  | .visit v => if v.isPlain then some (.visit v) else none
  | .region scope start stop => some (.region scope.bare start stop)

def Progress.bare (p : Progress) : Progress :=
  ⟨p.position, p.items.filterMap Item.bare⟩

namespace Progress
variable {p q : Progress}

theorem position_eq (h : p.bare = q.bare) : p.position = q.position :=
  show p.bare.position = q.bare.position by rw [h]

theorem bare_move (h : p.bare = q.bare) (i : Nat) :
    ({ p with position := i } : Progress).bare = ({ q with position := i } : Progress).bare :=
  congrArg (fun r : Progress => (⟨i, r.items⟩ : Progress)) h

theorem bare_note (h : p.bare = q.bare) {x y : Item} (hxy : x.bare = y.bare) :
    ({ p with items := p.items ++ [x] } : Progress).bare =
      ({ q with items := q.items ++ [y] } : Progress).bare := by
  have hitems : p.items.filterMap Item.bare = q.items.filterMap Item.bare := congrArg items h
  have hone : [x].filterMap Item.bare = [y].filterMap Item.bare := by
    rw [List.filterMap_cons, List.filterMap_cons, hxy]
  simp only [bare, List.filterMap_append, hitems, hone, position_eq h]

theorem bare_drop (p : Progress) {x : Item} (hx : x.bare = none) :
    ({ p with items := p.items ++ [x] } : Progress).bare = p.bare := by
  simp [bare, List.filterMap_append, hx]

end Progress

namespace Step
variable {α β γ δ : Type} {ts : Tokens} {R : α → β → Prop} {S : γ → δ → Prop}

/-- Results of two runs that match: both end well, or both fail for the same reason, with the same
progress but for what depends on templates and comments. -/
inductive Match (R : α → β → Prop) :
    Except ScanError α × Progress → Except ScanError β × Progress → Prop
  | ok {a : α} {b : β} {p q : Progress} (value : R a b) (progress : p.bare = q.bare) :
    Match R (.ok a, p) (.ok b, q)
  | error {e : ScanError} {p q : Progress} (progress : p.bare = q.bare) :
    Match R (.error e, p) (.error e, q)

def Matches (ts : Tokens) (R : α → β → Prop) (x : Step α) (y : Step β) : Prop :=
  ∀ p q, p.bare = q.bare → Match R (((x.run ts).run).run p) (((y.run ts).run).run q)

namespace Matches

theorem pure {a : α} {b : β} (h : R a b) : Matches ts R (Pure.pure a) (Pure.pure b) :=
  fun _ _ hpq => .ok h hpq

theorem throw (e : ScanError) :
    Matches ts R (MonadExcept.throw e : Step α) (MonadExcept.throw e : Step β) :=
  fun _ _ hpq => .error hpq

theorem bind {x : Step α} {y : Step β} {f : α → Step γ} {g : β → Step δ} (h : Matches ts R x y)
    (hfg : ∀ a b, R a b → Matches ts S (f a) (g b)) : Matches ts S (x >>= f) (y >>= g) := by
  intro p q hpq
  have hxy := h p q hpq
  simp only [ReaderT.run_bind, ExceptT.run_bind, StateT.run_bind]
  generalize ((x.run ts).run).run p = r at hxy ⊢
  generalize ((y.run ts).run).run q = r' at hxy ⊢
  cases hxy with
  | ok hab hpq => exact hfg _ _ hab _ _ hpq
  | error hpq => exact .error hpq

/-- Two steps that begin with the same step. -/
theorem next {x : Step α} {f : α → Step γ} {g : α → Step δ} (h : Matches ts Eq x x)
    (hfg : ∀ a, Matches ts S (f a) (g a)) : Matches ts S (x >>= f) (x >>= g) :=
  h.bind fun a _ hab => hab ▸ hfg a

theorem of_same {x x' : Step α} {y y' : Step β}
    (hx : ∀ r, Same ts x x' r) (hy : ∀ r, Same ts y y' r) (h : Matches ts R x y) :
    Matches ts R x' y' := by
  intro r r' hr
  rw [← hx r, ← hy r']
  exact h r r' hr

theorem read : Matches ts Eq read read :=
  fun _ _ hpq => .ok rfl hpq

theorem position : Matches ts Eq position position :=
  fun _ _ hpq => .ok (Progress.position_eq hpq) hpq

theorem kind? : Matches ts Eq kind? kind? :=
  fun _ _ hpq => .ok (congrArg ts.kind? (Progress.position_eq hpq)) hpq

theorem move (i : Nat) : Matches ts Eq (modify fun p => { p with position := i })
    (modify fun p => { p with position := i }) :=
  fun _ _ hpq => .ok rfl (Progress.bare_move hpq i)

theorem fail (fault : ScanFault) :
    Matches ts R (Step.fail fault : Step α) (Step.fail fault : Step β) :=
  position.next fun i => .throw ⟨fault, some i⟩

theorem current : Matches ts Eq current current := by
  refine read.next fun ts => position.next fun i => ?_
  cases ts[i]? with
  | none => exact .throw _
  | some t => exact .pure rfl

theorem take (expected : Option Kind) : Matches ts Eq (take expected) (take expected) := by
  refine read.next fun ts => position.next fun i => ?_
  cases ts.advance i expected with
  | error e => exact .throw e
  | ok r => exact (move r.2).next fun _ => .pure rfl

theorem accept (k : Kind) : Matches ts Eq (accept k) (accept k) := by
  refine kind?.next fun k' => ?_
  split
  · exact (take none).next fun _ => .pure rfl
  · exact .pure rfl

theorem jump (i : Nat) : Matches ts Eq (jump i) (jump i) :=
  read.next fun ts => move (ts.atOrAfter i)

theorem paired (g : Option Group) : Matches ts Eq (paired g) (paired g) := by
  cases g with
  | none => exact .fail _
  | some g => exact .pure rfl

theorem skipTo (kinds : List Kind) : Matches ts Eq (skipTo kinds) (skipTo kinds) := by
  refine read.next fun us => position.next fun i => (move (seek us kinds i)).next fun _ =>
    read.next fun ts => ?_
  split
  · exact .throw _
  · exact .pure rfl

theorem note {x y : Item} (h : x.bare = y.bare) : Matches ts Eq (note x) (note y) :=
  fun _ _ hpq => .ok rfl (Progress.bare_note hpq h)

theorem meet (v : Visit) : Matches ts Eq (meet v) (meet v) :=
  note rfl

/-- Of what depends on templates and comments, different things may be met. -/
theorem aside {v v' : Visit} (h : v.isPlain = false) (h' : v'.isPlain = false) :
    Matches ts Eq (Step.meet v) (Step.meet v') :=
  note (by simp [Item.bare, h, h'])

/-- What depends on a comment may be met on one run and not on the other. -/
theorem meetWith {visit visit' : DocComment → Visit} (h : ∀ c, (visit c).isPlain = false)
    (h' : ∀ c, (visit' c).isPlain = false) (c c' : Option DocComment) :
    Matches ts Eq (meetWith visit c) (meetWith visit' c') := by
  have hdrop : ∀ (visit : DocComment → Visit) c, (visit c).isPlain = false →
      Item.bare (.visit (visit c)) = none :=
    fun visit c h => if_neg (by simp [h])
  intro p q hpq
  cases c with
  | none =>
    cases c' with
    | none => exact .ok rfl hpq
    | some d => exact .ok rfl (hpq.trans (Progress.bare_drop q (hdrop visit' d (h' d))).symm)
  | some c =>
    have hp := (Progress.bare_drop p (hdrop visit c (h c))).trans hpq
    cases c' with
    | none => exact .ok rfl hp
    | some d => exact .ok rfl (hp.trans (Progress.bare_drop q (hdrop visit' d (h' d))).symm)

theorem within {s s' : Scope} (h : s.Alike s') (stop : Nat) :
    Matches ts Eq (within s stop) (within s' stop) := by
  refine position.next fun i => (note ?_).bind fun _ _ _ => jump (stop + 1)
  exact congrArg (fun s => some (Item.region s i stop)) h

theorem withinGroup {s s' : Scope} (h : s.Alike s') (g : Option Group) :
    Matches ts Eq (withinGroup s g) (withinGroup s' g) := by
  cases g with
  | none => exact .pure rfl
  | some g => exact (jump _).next fun _ => within h _

theorem enter {s s' : Scope} (h : s.Alike s') (r : Region) :
    Matches ts Scope.Alike (enter s r) (enter s' r) := by
  have henter := congrArg (Scope.enter · r) h
  simp only [Scope.bare_enter] at henter
  unfold Step.enter
  cases hs : s.enter r with
  | error e =>
    cases hs' : s'.enter r with
    | error e' =>
      rw [hs, hs'] at henter
      cases henter
      exact .throw e
    | ok inner => 
      rw [hs, hs'] at henter
      cases henter
  | ok inner =>
    cases hs' : s'.enter r with
    | error e' =>
      rw [hs, hs'] at henter
      cases henter
    | ok inner' =>
      rw [hs, hs'] at henter
      exact .pure (Except.ok.inj henter)

end Matches
end Step

open Step

section
variable {ts : Tokens} {s s' : Scope}

theorem namespaceName_matches : Matches ts Eq namespaceName namespaceName := by
  refine Matches.kind?.next fun k => ?_
  split
  · exact (Matches.take none).next fun t => .pure rfl
  · exact .pure rfl

theorem namespaceStatement_matches (h : s.Alike s') :
    Matches ts Scope.Alike (namespaceStatement s) (namespaceStatement s') := by
  refine (Matches.take _).next fun keyword => namespaceName_matches.next fun bare => ?_
  refine (Matches.meet _).next fun _ => Matches.kind?.next fun k => ?_
  split
  · exact (Matches.take none).next fun _ =>
      .pure (Scope.bare_withNamespace h (if bare = "" then "" else "\\" ++ bare))
  · refine (Matches.paired _).next fun body => (Matches.enter h _).bind fun inner inner' hin => ?_
    exact (Matches.take none).next fun _ => (Matches.within hin _).bind fun _ _ _ => .pure h
  · exact .fail _

theorem traitStatement_matches : Matches ts Eq traitStatement traitStatement := by
  refine (Matches.take _).next fun _ => (Matches.skipTo _).next fun _ =>
    Matches.current.next fun t => ?_
  split
  · exact (Matches.paired _).next fun g => .jump _
  · exact (Matches.take none).next fun _ => .pure rfl

theorem importsClasses_matches : Matches ts Eq importsClasses importsClasses := by
  refine Matches.kind?.next fun k => ?_
  split
  · exact (Matches.take none).next fun _ => .pure rfl
  · exact (Matches.take none).next fun _ => .pure rfl
  · exact .pure rfl

theorem importedName_matches : Matches ts Eq importedName importedName := by
  refine (Matches.take none).next fun t => ?_
  split
  · exact .pure rfl
  · exact .fail _

theorem addImport_matches (h : s.Alike s') (name : String) (classes : Bool) :
    Matches ts Scope.Alike (addImport s name classes) (addImport s' name classes) := by
  have halias : Matches ts Eq (importAlias name) (importAlias name) := by
    refine (Matches.accept _).next fun taken => ?_
    split
    · exact (Matches.take none).next fun t => .pure rfl
    · exact .pure rfl
  refine halias.next fun short => ?_
  split
  · exact (Matches.meet _).next fun _ => .pure (Scope.bare_withImport h short ("\\" ++ name))
  · exact .pure h

theorem importGroup_matches (h : s.Alike s') (start : String) (classes : Bool) (bound : Nat) :
    Matches ts Scope.Alike (importGroup start classes bound s)
      (importGroup start classes bound s') := by
  induction bound generalizing s s' with
  | zero => exact .throw _
  | succ bound ih =>
    refine Matches.kind?.next fun k => ?_
    split
    · exact (Matches.take none).next fun _ => .pure h
    · refine importsClasses_matches.next fun members => importedName_matches.next fun name => ?_
      exact (addImport_matches h _ _).bind fun _ _ h => (Matches.accept _).next fun _ => ih h

theorem importItem_matches (h : s.Alike s') (classes : Bool) (bound : Nat) :
    Matches ts Scope.Alike (importItem classes bound s) (importItem classes bound s') := by
  refine importedName_matches.next fun name => (Matches.accept _).next fun grouped => ?_
  split
  · exact (Matches.take _).next fun _ => importGroup_matches h _ _ _
  · exact addImport_matches h _ _

theorem importList_matches (h : s.Alike s') (classes : Bool) (bound : Nat) :
    Matches ts Scope.Alike (importList classes bound s) (importList classes bound s') := by
  induction bound generalizing s s' with
  | zero => exact .throw _
  | succ bound ih =>
    refine (importItem_matches h _ _).bind fun _ _ h => (Matches.accept _).next fun more => ?_
    split
    · exact ih h
    · exact .pure h

theorem importStatement_matches (h : s.Alike s') :
    Matches ts Scope.Alike (importStatement s) (importStatement s') := by
  refine (Matches.take _).next fun _ => importsClasses_matches.next fun classes =>
    Matches.read.next fun ts => (importList_matches h _ _).bind fun _ _ h => ?_
  exact (Matches.take _).next fun _ => .pure h

theorem useStatement_matches (h : s.Alike s') :
    Matches ts Scope.Alike (useStatement s) (useStatement s') := by
  unfold useStatement
  rw [← Scope.kind_eq h]
  split
  · exact traitStatement_matches.next fun _ => .pure h
  · exact importStatement_matches h
  · exact importStatement_matches h
  · exact .fail _

variable {b b' : Binder} {c c' : Option DocComment}

theorem classStatement_matches (h : s.Alike s') :
    Matches ts Eq (classStatement b s c) (classStatement b' s' c') := by
  unfold classStatement
  rw [Scope.qualify_eq h, Scope.resolve_eq h]
  refine Matches.read.next fun us => Matches.position.next fun i =>
    Matches.current.next fun keyword => ?_
  extract_lets name extended implemented
  generalize (if keyword.kind = .interfaceKw then (none, extended)
    else (extended.head?, implemented)) = heirs
  obtain ⟨parent, interfaces⟩ := heirs
  refine (Matches.meet _).next fun _ => (Matches.paired _).next fun body =>
    (Matches.withinGroup h _).bind fun _ _ _ => (Matches.enter h _).bind fun inner inner' hin => ?_
  have hrun : (b.run inner c).Alike (b'.run inner' c') := by
    rw [Scope.Alike, Scope.bare_run, Scope.bare_run, hin]
  refine (Matches.meetWith (fun _ => rfl) (fun _ => rfl) c c').bind fun _ _ _ =>
    (Matches.meetWith (fun _ => rfl) (fun _ => rfl) c c').bind fun _ _ _ => ?_
  exact (Matches.jump _).next fun _ => .within hrun _

theorem captureList_matches : Matches ts Eq captureList captureList := by
  refine Matches.kind?.next fun k => ?_
  split
  · refine (Matches.take none).next fun _ => Matches.kind?.next fun k => ?_
    split
    · exact Matches.current.next fun t => (Matches.paired _).next fun g => .jump _
    · exact .fail _
  · exact .pure rfl

theorem functionStatement_matches (h : s.Alike s') :
    Matches ts Eq (functionStatement b s c) (functionStatement b' s' c') := by
  refine Matches.read.next fun us => Matches.position.next fun i =>
    Matches.current.next fun keyword => (Matches.meet _).next fun _ =>
    (Matches.enter h _).bind fun inner inner' hin => ?_
  have hrun : (b.run inner c).Alike (b'.run inner' c') := by
    rw [Scope.Alike, Scope.bare_run, Scope.bare_run, hin]
  refine (Matches.meetWith (fun _ => rfl) (fun _ => rfl) c c').bind fun _ _ _ => ?_
  simp only
  refine (Matches.aside rfl rfl).bind fun _ _ _ => ?_
  split
  · exact .throw _
  · refine (Matches.enter hrun _).bind fun listed listed' hlisted => (Matches.jump _).next fun _ =>
      (Matches.within hlisted _).bind fun _ _ _ => captureList_matches.next fun _ => ?_
    split
    · exact (Matches.skipTo _).next fun _ => (Matches.take none).next fun _ => .pure rfl
    · split
      · exact (Matches.skipTo _).next fun _ => (Matches.take none).next fun _ => .pure rfl
      · exact (Matches.enter hrun _).bind fun inside inside' hinside =>
          (Matches.jump _).next fun _ => .within hinside _

theorem variableStatement_matches (h : s.Alike s') :
    Matches ts Eq (variableStatement s c) (variableStatement s' c') := by
  unfold variableStatement
  rw [Scope.closer_eq h]
  refine Matches.read.next fun us => Matches.position.next fun i => (Matches.accept _).next fun _ =>
    Matches.position.next fun keyword => Matches.kind?.next fun k => ?_
  simp only
  split
  · exact .throw _
  · refine (Matches.meet _).next fun _ => ?_
    split
    · exact (Matches.aside rfl rfl).bind fun _ _ _ => .jump _
    · exact .jump _

theorem declareStatement_matches : Matches ts Eq declareStatement declareStatement := by
  refine (Matches.take none).next fun _ => Matches.kind?.next fun k => ?_
  split
  · exact Matches.current.next fun t => (Matches.paired _).next fun g => .jump _
  · exact .pure rfl

end
end Outline
end PhpDoc
