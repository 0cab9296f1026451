import PhpDoc.Check.File
import PhpDoc.Proofs.CommentBlocks
import PhpDoc.Proofs.Matching
/-!
The two walks over a file. Only the second looks up the comment before a declaration, and this could
fail; in the tokens of a source text it does not, so that both walks start statements at the same
positions and meet the same declarations.
-/
namespace PhpDoc

namespace DocComment

def lookup (ts : Tokens) (i : Nat) : Except ScanError (Option DocComment) :=
  match openerOf ts i with
  | none => .ok none
  | some opener => (read ts opener).map some

/-- No look-up fails among tokens in which every comment that ends can be read. -/
theorem lookup_eq {ts : Tokens} (h : ts.Commented) (i : Nat) : lookup ts i = .ok (before ts i) := by
  unfold lookup before
  cases ho : openerOf ts i with
  | none => rfl
  | some o =>
    obtain ⟨j, hj, hopener⟩ := exists_of_openerOf ho
    obtain ⟨o', c, ho', hread⟩ := h j hj
    obtain rfl : o = o' := Option.some.inj (hopener.symm.trans ho')
    simp [hread, Except.map, Except.toOption]

end DocComment

namespace Outline
open Step

/-- A walk as the file is checked: how it looks up comments, and how it binds templates. -/
structure Pass where
  lookup : Tokens → Nat → Except ScanError (Option DocComment)
  binder : Binder

namespace Pass

def first : Pass :=
  ⟨fun _ _ => .ok none, .none⟩

def second (h : Hierarchy) : Pass :=
  ⟨DocComment.lookup, Check.bindTemplates h⟩

def plain (b : Binder) : Pass :=
  ⟨fun ts i => .ok (DocComment.before ts i), b⟩

def comment (p : Pass) (i : Nat) : Step (Option DocComment) := do
  match p.lookup (← read) i with
  | .ok c => return c
  | .error e => throw e

def declaration (p : Pass) (scope : Scope) : Step Unit := do
  let ts ← read
  let start ← position
  let (i, lateBound) := afterModifiers ts start
  modify fun p => { p with position := i }
  if !lateBound then
    let kind := (ts.kind? i)
    let classLike := kind.any Kind.isClassLike
    let function := kind.any Kind.isFunction
    let checked := scope.kind = .classLike ∨
      (kind = some .constKw ∧ (scope.kind = .root ∨ scope.kind = .nameSpace))
    if classLike || function || checked then
      let comment ← p.comment start
      meetWith .comment comment
      if classLike then classStatement p.binder scope comment
      else if function then functionStatement p.binder scope comment
      else variableStatement scope comment
    else if i = start then
      let _ ← take

def statement (p : Pass) (scope : Scope) : Step Scope := do
  let t ← current
  if beginsDeclaration t.kind then
    p.declaration scope
    return scope
  else Outline.statement .none scope

def outcome (p : Pass) (ts : Tokens) (scope : Scope) (i : Nat) : Outcome :=
  let (result, q) := (((p.statement scope).run ts).run).run ⟨i, []⟩
  ⟨q.items, q.position, result⟩

def Reads (p : Pass) (ts : Tokens) : Prop :=
  ∀ i, ∃ c, p.lookup ts i = .ok c

end Pass

section
variable {ts : Tokens} {p q : Pass} {s s' : Scope}

theorem Pass.run_comment {i : Nat} {c : Option DocComment} (h : p.lookup ts i = .ok c)
    (r : Progress) : (((p.comment i).run ts).run).run r = (.ok c, r) := by
  change ((((match p.lookup ts i with
    | .ok c => pure c
    | .error e => throw e : Step (Option DocComment)).run ts).run).run r) = _
  rw [h]
  rfl

theorem Pass.comment_matches (hp : p.Reads ts) (hq : q.Reads ts) (i : Nat) :
    Matches ts (fun _ _ => True) (p.comment i) (q.comment i) := by
  intro r r' hr
  obtain ⟨c, hc⟩ := hp i
  obtain ⟨c', hc'⟩ := hq i
  rw [Pass.run_comment hc, Pass.run_comment hc']
  exact .ok trivial hr

theorem Pass.declaration_matches (hp : p.Reads ts) (hq : q.Reads ts) (h : s.Alike s') :
    Matches ts Eq (p.declaration s) (q.declaration s') := by
  unfold Pass.declaration
  rw [Scope.kind_eq h]
  refine Matches.read.next fun us => Matches.position.next fun start => ?_
  simp only
  refine (Matches.move _).next fun _ => ?_
  split
  · split
    · refine (Pass.comment_matches hp hq start).bind fun c c' _ =>
        (Matches.meetWith (fun _ => rfl) (fun _ => rfl) c c').bind fun _ _ _ => ?_
      split
      · exact classStatement_matches h
      · split
        · exact functionStatement_matches h
        · exact variableStatement_matches h
    · split
      · exact (Matches.take none).next fun _ => .pure rfl
      · exact .pure rfl
  · exact .pure rfl

/-- A pass that finds the comments that are there makes the declarations of a walk. -/
theorem Pass.declaration_same (hp : ∀ i, p.lookup ts i = .ok (DocComment.before ts i))
    (r : Progress) : Same ts (p.declaration s) (Outline.declaration p.binder s) r := by
  unfold Pass.declaration Outline.declaration
  have hread : Holds ts read (fun us q => us = ts ∧ q = r) (fun _ _ => True) r := ⟨rfl, rfl⟩
  refine .bind rfl hread ?_
  rintro us q ⟨rfl, rfl⟩
  refine .bind rfl (holds_true _) fun start r _ => .bind rfl (holds_true _) fun _ r _ => ?_
  split
  · dsimp only
    split
    · exact run_bind_ok (Pass.run_comment (hp start) r)
    · rfl
  · rfl

theorem declaration_matches (b b' : Binder) (h : s.Alike s') :
    Matches ts Eq (declaration b s) (declaration b' s') := by
  have hsame (b : Binder) (s : Scope) (r : Progress) :
      Same ts ((Pass.plain b).declaration s) (declaration b s) r :=
    Pass.declaration_same (fun _ => rfl) r
  have hreads (b : Binder) : (Pass.plain b).Reads ts := fun i => ⟨_, rfl⟩
  exact .of_same (hsame b s) (hsame b' s') (Pass.declaration_matches (hreads b) (hreads b') h)

/-- The statements of any two walks match. -/
theorem statement_matches (b b' : Binder) (h : s.Alike s') :
    Matches ts Scope.Alike (statement b s) (statement b' s') := by
  refine Matches.current.next fun t => ?_
  split
  · exact (Matches.paired _).next fun g => (Matches.take none).next fun _ =>
      (Matches.enter h _).bind fun inner inner' hin =>
        (Matches.within hin _).bind fun _ _ _ => .pure h
  · exact .fail _
  · exact namespaceStatement_matches h
  · exact useStatement_matches h
  · exact declareStatement_matches.next fun _ => .pure h
  · exact (Matches.paired _).next fun g => (Matches.jump _).next fun _ => .pure h
  · split
    · exact (declaration_matches b b' h).bind fun _ _ _ => .pure h
    · exact (Matches.take none).next fun _ => .pure h

theorem Pass.statement_matches (hp : p.Reads ts) (hq : q.Reads ts) (h : s.Alike s') :
    Matches ts Scope.Alike (p.statement s) (q.statement s') := by
  refine Matches.current.next fun t => ?_
  split
  · exact (Pass.declaration_matches hp hq h).bind fun _ _ _ => .pure h
  · exact Outline.statement_matches _ _ h

/-- A pass that finds the comments that are there makes the statements of a walk. -/
theorem Pass.statement_same (hp : ∀ i, p.lookup ts i = .ok (DocComment.before ts i))
    (r : Progress) : Same ts (p.statement s) (Outline.statement p.binder s) r := by
  have hcurrent : Holds ts current (fun t q => ts[q.position]? = some t) (fun _ _ => True) r :=
    holds_current (fun t ht => ht) fun _ => trivial
  refine .bind rfl hcurrent fun t q ht => ?_
  by_cases hk : beginsDeclaration t.kind = true
  · rw [if_pos hk]
    split
    case h_7 => 
      rw [if_pos hk]
      exact .bind (Pass.declaration_same hp q) (holds_true _) fun _ _ _ => rfl
    all_goals
      rename_i hkind
      rw [hkind] at hk
      cases hk
  · rw [if_neg hk]
    unfold Same Outline.statement
    rw [run_bind_ok (run_current ht)]
    split
    case h_7 => rw [if_neg hk, if_neg hk]
    all_goals rfl

theorem Pass.outcome_eq (hp : ∀ i, p.lookup ts i = .ok (DocComment.before ts i)) (i : Nat) :
    p.outcome ts s i = Outline.outcome p.binder ts s i := by
  have hsame := Pass.statement_same (s := s) hp ⟨i, []⟩
  unfold Same at hsame
  rw [Pass.outcome, hsame]
  rfl

structure Outcome.Alike (o o' : Outcome) : Prop where
  position : o.position = o'.position
  items : o.items.filterMap Item.bare = o'.items.filterMap Item.bare
  result : o.result.map Scope.bare = o'.result.map Scope.bare

theorem Pass.outcome_alike (hp : p.Reads ts) (hq : q.Reads ts) (h : s.Alike s') (i : Nat) :
    (p.outcome ts s i).Alike (q.outcome ts s' i) := by
  have hmatch := Pass.statement_matches hp hq h ⟨i, []⟩ ⟨i, []⟩ rfl
  unfold Pass.outcome
  generalize (((p.statement s).run ts).run).run ⟨i, []⟩ = r at hmatch ⊢
  generalize (((q.statement s').run ts).run).run ⟨i, []⟩ = r' at hmatch ⊢
  cases hmatch with
  | ok value progress =>
    exact ⟨Progress.position_eq progress, congrArg Progress.items progress,
      congrArg Except.ok value⟩
  | error progress =>
    exact ⟨Progress.position_eq progress, congrArg Progress.items progress, rfl⟩

/-- A stage of a walk: a statement starts at a position, or something is met. -/
inductive Stage
  | start (i : Nat)
  | met (v : Visit)
deriving Repr

namespace Stage

def start? : Stage → Option Nat
  | .start i => some i
  | .met _ => none

def visit? : Stage → Option Visit
  | .start _ => none
  | .met v => some v

def bare : Stage → Option Stage
  | .start i => some (.start i)
  | .met v => if v.isPlain then some (.met v) else none

end Stage

def Item.stages (inside : Scope → Nat → Nat → List Stage) : Item → List Stage
  | .visit v => [.met v]
  | .region scope start stop => inside scope start stop

def trace (f : Scope → Nat → Outcome) (ts : Tokens) : Nat → Scope → Nat → Nat → List Stage
  | 0, _, _, _ => []
  | bound + 1, scope, i, stop =>
    if ts.size ≤ i ∨ stop ≤ i then []
    else
      let o := f scope i
      let stages := o.items.flatMap (Item.stages (trace f ts bound))
      .start i :: match o.result with
        | .ok scope => stages ++ trace f ts bound scope o.position stop
        | .error e =>
          stages ++ .met (.fault e) :: trace f ts bound scope (recover ts stop i o.position) stop

/-- What is met on the way is what the walk meets. -/
theorem trace_met (b : Binder) (bound : Nat) (i stop : Nat) :
    (trace (outcome b ts) ts bound s i stop).filterMap Stage.visit? = walk b ts bound s i stop := by
  induction bound generalizing s i stop with
  | zero => rfl
  | succ bound ih =>
    rw [trace, walk]
    split
    · rfl
    · have hitems : ((outcome b ts s i).items.flatMap
          (Item.stages (trace (outcome b ts) ts bound))).filterMap Stage.visit? =
          (outcome b ts s i).items.flatMap (Item.met (walk b ts bound)) := by
        rw [List.filterMap_flatMap]
        congr 1
        funext item
        cases item with
        | visit v => rfl
        | region scope start stop => exact ih start stop
      simp only
      cases (outcome b ts s i).result with
      | ok next => simp only [List.filterMap_cons, List.filterMap_append, hitems, ih, Stage.visit?]
      | error e => simp only [List.filterMap_cons, List.filterMap_append, hitems, ih, Stage.visit?]

/-- The stages of items, but for what depends on templates and comments, are those of the items
without it. -/
theorem stages_bare {inside inside' : Scope → Nat → Nat → List Stage}
    (hin : ∀ s s' i stop, s.Alike s' →
      (inside s i stop).filterMap Stage.bare = (inside' s' i stop).filterMap Stage.bare)
    (items : List Item) :
    (items.flatMap (Item.stages inside)).filterMap Stage.bare =
      ((items.filterMap Item.bare).flatMap (Item.stages inside')).filterMap Stage.bare := by
  induction items with
  | nil => rfl
  | cons item items ih =>
    rw [List.flatMap_cons, List.filterMap_append, ih, List.filterMap_cons]
    cases item with
    | visit v =>
      by_cases hv : v.isPlain = true
      · simp [Item.bare, Item.stages, Stage.bare, hv]
      · simp [Item.bare, Item.stages, Stage.bare, hv]
    | region s start stop =>
      simp only [Item.bare, List.flatMap_cons, Item.stages, List.filterMap_append]
      rw [hin s s.bare start stop rfl]

/-- Walks whose statements come to alike outcomes have the same stages, but for what depends on
templates and comments. -/
theorem trace_bare {f g : Scope → Nat → Outcome}
    (hfg : ∀ s s' i, s.Alike s' → (f s i).Alike (g s' i)) (h : s.Alike s') (bound i stop : Nat) :
    (trace f ts bound s i stop).filterMap Stage.bare =
      (trace g ts bound s' i stop).filterMap Stage.bare := by
  induction bound generalizing s s' i stop with
  | zero => rfl
  | succ bound ih =>
    rw [trace, trace]
    split
    · rfl
    · obtain ⟨hposition, hitems, hresult⟩ := hfg s s' i h
      have hstages : ((f s i).items.flatMap (Item.stages (trace f ts bound))).filterMap Stage.bare =
          ((g s' i).items.flatMap (Item.stages (trace g ts bound))).filterMap Stage.bare := by
        rw [stages_bare (fun s s' i stop hs => ih hs i stop), hitems,
          ← stages_bare fun s s' i stop hs => (ih hs.symm i stop).symm.trans (ih rfl i stop)]
      simp only [← hposition]
      cases hf : (f s i).result with
      | error e =>
        cases hg : (g s' i).result with
        | error e' =>
          rw [hf, hg] at hresult
          cases hresult
          simp only [List.filterMap_cons, List.filterMap_append, hstages, ih h, Stage.bare]
        | ok next' =>
          rw [hf, hg] at hresult
          cases hresult
      | ok next =>
        cases hg : (g s' i).result with
        | error e' =>
          rw [hf, hg] at hresult
          cases hresult
        | ok next' =>
          rw [hf, hg] at hresult
          have hnext : next.Alike next' := Except.ok.inj hresult
          simp only [List.filterMap_cons, List.filterMap_append, hstages, ih hnext, Stage.bare]

namespace Pass

def stages (p : Pass) (ts : Tokens) : List Stage :=
  trace (p.outcome ts) ts (ts.size + 1) {} (ts.atOrAfter 0) ts.size

def starts (p : Pass) (ts : Tokens) : List Nat :=
  (p.stages ts).filterMap Stage.start?

def visits (p : Pass) (ts : Tokens) : List Visit :=
  (p.stages ts).filterMap Stage.visit?

theorem visits_eq (hp : ∀ i, p.lookup ts i = .ok (DocComment.before ts i)) :
    p.visits ts = Outline.visits p.binder ts := by
  have houtcome : p.outcome ts = Outline.outcome p.binder ts :=
    funext fun s => funext fun i => outcome_eq hp i
  rw [visits, stages, houtcome, trace_met, Outline.visits]

/-- Passes that look up comments without a fault have the same stages, but for what depends on
templates and comments. -/
theorem stages_bare (hp : p.Reads ts) (hq : q.Reads ts) :
    (p.stages ts).filterMap Stage.bare = (q.stages ts).filterMap Stage.bare :=
  trace_bare (fun _ _ i h => outcome_alike hp hq h i) rfl _ _ _

theorem starts_eq (hp : p.Reads ts) (hq : q.Reads ts) : p.starts ts = q.starts ts := by
  have hbare : ∀ stage : Stage, stage.bare.bind Stage.start? = stage.start? := by
    rintro (i | v)
    · rfl
    · cases v <;> rfl
  have hstages := congrArg (List.filterMap Stage.start?) (stages_bare hp hq)
  simpa only [starts, List.filterMap_filterMap, hbare] using hstages

theorem classEntries_eq (hp : p.Reads ts) (hq : q.Reads ts) :
    (p.visits ts).filterMap Visit.classEntry? = (q.visits ts).filterMap Visit.classEntry? := by
  have hbare : ∀ stage : Stage, stage.bare.bind (fun s => s.visit?.bind Visit.classEntry?) =
      stage.visit?.bind Visit.classEntry? := by
    rintro (i | v)
    · rfl
    · cases v <;> rfl
  have hstages := congrArg (List.filterMap fun s => s.visit?.bind Visit.classEntry?)
    (stages_bare hp hq)
  simpa only [visits, List.filterMap_filterMap, hbare] using hstages

theorem first_reads : first.Reads ts :=
  fun _ => ⟨none, rfl⟩

theorem second_reads (h : Hierarchy) (hts : ts.Commented) : (second h).Reads ts :=
  fun i => ⟨_, DocComment.lookup_eq hts i⟩

theorem plain_reads (b : Binder) : (plain b).Reads ts :=
  fun _ => ⟨_, rfl⟩

end Pass
end

/-- The two walks are alike. In the tokens of a source text no comment fails to be read; where that
is so, a statement comes on both walks to the same fault or ends at the same position, in scopes
that stay the same but for their templates, both walks start statements at the same positions, and
the second meets the classes that the first one found. -/
theorem passes_alike :
    (∀ source, (tokenize source).Commented) ∧
    ∀ (ts : Tokens) (h : Hierarchy), ts.Commented →
      (∀ s s' : Scope, s.Alike s' → ∀ i,
        (Pass.first.outcome ts s i).Alike ((Pass.second h).outcome ts s' i)) ∧
      Pass.first.starts ts = (Pass.second h).starts ts ∧
      (Pass.first.visits ts).filterMap Visit.classEntry? =
        ((Pass.second h).visits ts).filterMap Visit.classEntry? ∧
      Visit.hierarchy (Pass.first.visits ts) = Check.hierarchy ts ∧
      (Pass.second h).visits ts = visits (Check.bindTemplates h) ts := by
  refine ⟨tokenize_commented, fun ts h hts => ?_⟩
  have hfirst : Pass.first.Reads ts := Pass.first_reads
  have hsecond := Pass.second_reads h hts
  refine ⟨fun s s' hs i => Pass.outcome_alike hfirst hsecond hs i, Pass.starts_eq hfirst hsecond,
    Pass.classEntries_eq hfirst hsecond, ?_, Pass.visits_eq (DocComment.lookup_eq hts)⟩
  have hplain : (Pass.plain .none).visits ts = visits .none ts := Pass.visits_eq fun _ => rfl
  rw [Check.hierarchy, ← hplain, Visit.hierarchy, Visit.hierarchy,
    Pass.classEntries_eq hfirst (Pass.plain_reads .none)]

theorem passes_alike_template :
    let ts := tokenize "<?php /** @template T */ class A { /** @var T */ public $x; }"
    let s : Scope := { kind := .classLike }
    ts.Commented ∧ s.Alike (s.withTemplate "T" .mixed) ∧
      (Pass.first.outcome ts s 12).Alike
        ((Pass.second []).outcome ts (s.withTemplate "T" .mixed) 12) := by
  intro ts s
  have hts := passes_alike.1 "<?php /** @template T */ class A { /** @var T */ public $x; }"
  exact ⟨hts, rfl, (passes_alike.2 ts [] hts).1 s (s.withTemplate "T" .mixed) rfl 12⟩

end Outline
end PhpDoc
