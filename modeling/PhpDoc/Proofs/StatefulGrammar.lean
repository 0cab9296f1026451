import PhpDoc.Proofs.RememberedTypes
import PhpDoc.Type.Parser
/-!
The grammar of a parser. Whatever its lattice has been asked before, a parser reads what the grammar
of type expressions reads, and each question it asks on the way is answered by the hierarchy.
-/
namespace PhpDoc.Parser
open Parse PhpDoc.Lattice

structure Serves (p : Parser) (c : Context) : Prop where
  context : p.context = c
  coherent : Coherent c.hierarchy p.lattice

/-- The outcome of a step of a parser is what is read without a lattice. Where that fails the parser
may be left anywhere, but it still serves the same call. -/
inductive Tracks {α : Type} (c : Context) (s : Subject) :
    Except Malformed α × Parser → Except Malformed (α × Reader) → Prop
  | ok {a : α} {p : Parser} (hp : p.Serves c) (hs : p.subject = s) :
    Tracks c s (.ok a, p) (.ok (a, p.reader))
  | error {f : Malformed} {p : Parser} (hp : p.Serves c) (hs : p.subject = s) :
    Tracks c s (.error f, p) (.error f)

def Follows {α : Type} (c : Context) (step : Step α) (q : Parse α) : Prop :=
  ∀ p : Parser, p.Serves c → Tracks c p.subject (step p) (q p.reader)

variable {α β : Type} {c : Context} {step : Step α} {q : Parse α}

theorem follows_pure (a : α) : Follows c (pure a) (pure a) :=
  fun _ hp => .ok hp rfl

theorem follows_throw (f : Malformed) : Follows c (throw f : Step α) (throw f) :=
  fun _ hp => .error hp rfl

theorem lift_eq (q : Parse α) (p : Parser) :
    (liftM q : Step α) p = match q p.reader with
      | .ok (a, reader) => (.ok a, { p with reader })
      | .error f => (.error f, p) :=
  rfl

theorem follows_lift (q : Parse α) : Follows c (liftM q) q := by
  intro p hp
  rw [lift_eq]
  cases q p.reader with
  | ok r => exact .ok (p := { p with reader := r.2 }) ⟨hp.context, hp.coherent⟩ rfl
  | error f => exact .error hp rfl

theorem Tracks.bind {p : Parser} {f : α → Step β} {g : α → Parse β}
    (h : Tracks c p.subject (step p) (q p.reader))
    (hf : ∀ a (p' : Parser), p'.Serves c → p'.subject = p.subject →
      Tracks c p.subject (f a p') (g a p'.reader)) :
    Tracks c p.subject ((step >>= f) p) ((q >>= g) p.reader) := by
  have hstep : (step >>= f) p = ExceptT.bindCont f (step p).1 (step p).2 := rfl
  have hq : (q >>= g) p.reader = (q p.reader).bind fun r => g r.1 r.2 := rfl
  rw [hstep, hq]
  generalize step p = outcome, q p.reader = result at h
  cases h with
  | ok hp' hs => exact hf _ _ hp' hs
  | error hp' hs => exact .error hp' hs

theorem Follows.bind {f : α → Step β} {g : α → Parse β} (h : Follows c step q)
    (hf : ∀ a, Follows c (f a) (g a)) : Follows c (step >>= f) (q >>= g) :=
  fun p hp => (h p hp).bind fun a p' hp' hs => hs ▸ hf a p' hp'

/-- Both readings begin with a step that asks nothing. -/
theorem follows_then (q : Parse α) {f : α → Step β} {g : α → Parse β}
    (hf : ∀ a, Follows c (f a) (g a)) : Follows c (liftM q >>= f) (q >>= g) :=
  (follows_lift q).bind hf

theorem follows_fail_bind {f : α → Step β} {g : α → Parse β} :
    Follows c (liftM (fail : Parse α) >>= f) (fail >>= g) :=
  fun _ hp => .error hp rfl

/-- What a call is about does not depend on what the lattice remembers. -/
theorem Serves.withLattice {p : Parser} {l : Lattice} (hp : p.Serves c)
    (hl : Coherent c.hierarchy l) : ({ p with lattice := l } : Parser).Serves c := by
  have hcontext := hp.context
  refine ⟨?_, hl⟩
  rw [Parser.context, hp.coherent.hierarchy] at hcontext
  rw [Parser.context, hl.hierarchy, hcontext]

/-- A question is answered by the hierarchy. -/
theorem follows_ask {query : Query α} {a : α} {f : α → Step β} {q : Parse β}
    (hq : Answers c.hierarchy query a) (hf : Follows c (f a) q) :
    Follows c (liftM query >>= f) q := by
  intro p hp
  obtain ⟨l, hl, hcoherent⟩ := hq p.lattice hp.coherent
  have hask : (liftM query >>= f) p =
      f (query p.lattice).1 { p with lattice := (query p.lattice).2 } := rfl
  rw [hask, hl]
  exact hf { p with lattice := l } (hp.withLattice hcoherent)

theorem follows_answer {query : Query α} {a : α} (hq : Answers c.hierarchy query a) :
    Follows c (liftM query) (pure a) := by
  rw [← bind_pure (liftM query : Step α)]
  exact follows_ask hq (follows_pure a)

theorem follows_against {f : Context → Step β} {q : Parse β} (hf : Follows c (f c) q) :
    Follows c (against >>= f) q := by
  intro p hp
  have hagainst : (against >>= f) p = f p.context p := rfl
  rw [hagainst, hp.context]
  exact hf p hp

theorem follows_ahead {f : List Lexeme → Step β} {g : Reader → Parse β}
    (hf : ∀ s, Follows c (f s.rest) (g s)) : Follows c (ahead >>= f) (get >>= g) :=
  fun p hp => hf p.reader p hp

theorem follows_ite {b : Prop} [Decidable b] {step' : Step α} {q' : Parse α}
    (h : Follows c step q) (h' : Follows c step' q') :
    Follows c (if b then step else step') (if b then q else q') := by
  split
  · exact h
  · exact h'

variable {inner : Nested} {inner' : Grammar.Nested} {bound : Nat}

theorem follows_itemsTo {more : Parse Bool} (h : Follows c step q) (bound : Nat) :
    Follows c (itemsTo step more bound) (Parse.itemsTo q more bound) := by
  induction bound with
  | zero => exact follows_lift fail
  | succ bound ih =>
    refine h.bind fun a => follows_then _ fun _ => follows_ite ?_ (follows_pure _)
    exact follows_then _ fun _ => ih.bind fun as => follows_pure (a :: as)

theorem follows_items {more : Parse Bool} (h : Follows c step q) :
    Follows c (items step more) (Parse.items q more) :=
  follows_ahead fun _ => follows_itemsTo h _

theorem follows_argumentsTo (hw : Follows c inner.whole inner'.whole) (bound : Nat) :
    Follows c (argumentsTo inner bound) (Grammar.argumentsTo inner' bound) := by
  induction bound with
  | zero => exact follows_lift fail
  | succ bound ih =>
    refine hw.bind fun _ => follows_then _ fun _ => follows_ite (follows_lift _) ?_
    exact follows_then _ fun _ => ih

theorem follows_arguments (hw : Follows c inner.whole inner'.whole) (most : Option Nat) :
    Follows c (arguments inner most) (Grammar.arguments inner' most) :=
  follows_then _ fun _ => follows_ahead fun _ => follows_argumentsTo hw _

theorem follows_requiredKey : Follows c requiredKey Grammar.requiredKey := by
  refine follows_then _ fun o => ?_
  cases o with
  | none => exact follows_lift fail
  | some l =>
    refine follows_ite (follows_then _ fun _ => follows_then _ fun _ => ?_) (follows_lift fail)
    exact follows_lift _

theorem follows_entriesTo (hw : Follows c inner.whole inner'.whole) (keyed : Bool) (bound : Nat) :
    Follows c (entriesTo inner keyed bound) (Grammar.entriesTo inner' keyed bound) := by
  induction bound with
  | zero => exact follows_lift fail
  | succ bound ih =>
    have hrest : ∀ {first : Step Unit} {first' : Parse Unit}, Follows c first first' → Follows c (do
        first
        let _ ← inner.whole
        if ← sees "," then
          skip
          if ← sees "\x7d" then skip else entriesTo inner keyed bound
        else expect "\x7d") (do
        first'
        let _ ← inner'.whole
        if ← sees "," then
          skip
          if ← sees "\x7d" then skip else Grammar.entriesTo inner' keyed bound
        else expect "\x7d") := by
      refine fun hf => hf.bind fun _ => hw.bind fun _ => follows_then _ fun _ =>
        follows_ite ?_ (follows_lift _)
      exact follows_then _ fun _ => follows_then _ fun _ => follows_ite (follows_lift _) ih
    refine follows_then _ fun _ => follows_ite ?_ (follows_ite ?_ ?_)
    · exact follows_then _ fun _ => follows_lift _
    · exact hrest follows_requiredKey
    · exact hrest (follows_lift _)

theorem follows_shape (hw : Follows c inner.whole inner'.whole) (keyed : Bool) :
    Follows c (shape inner keyed) (Grammar.shape inner' keyed) := by
  refine follows_then _ fun _ => follows_then _ fun _ => follows_ite (follows_lift _) ?_
  exact follows_ahead fun _ => follows_entriesTo hw keyed _

theorem follows_parametersTo (hw : Follows c inner.whole inner'.whole) (bound : Nat) :
    Follows c (parametersTo inner bound) (Grammar.parametersTo inner' bound) := by
  induction bound with
  | zero => exact follows_lift fail
  | succ bound ih =>
    have hrest : Follows c (do
        if !(← sees ")") then expect ","
        parametersTo inner bound) (do
        if !(← sees ")") then expect ","
        Grammar.parametersTo inner' bound) := by
      refine follows_then _ fun _ => follows_ite ?_ ih
      exact follows_then _ fun _ => ih
    refine follows_then _ fun _ => follows_ite (follows_lift _) ?_
    refine hw.bind fun _ => follows_then _ fun _ => follows_then _ fun _ => follows_then _ fun _ =>
      follows_then _ fun _ => follows_ite ?_ hrest
    exact follows_then _ fun _ => hrest

def caught (tell : Malformed → Malformed) (q : Parse α) : Parse α := fun s =>
  match q s with
  | .ok r => .ok r
  | .error f => .error (tell f)

theorem tryCatch_eq (tell : Malformed → Malformed) (step : Step α) (p : Parser) :
    (tryCatch step fun f => throw (tell f) : Step α) p = ((step p).1.mapError tell, (step p).2) := by
  simp only [tryCatch, tryCatchThe, MonadExceptOf.tryCatch, ExceptT.tryCatch, ExceptT.mk, bind,
    StateT.bind]
  obtain ⟨_ | _, _⟩ := step p <;> rfl

theorem follows_caught {tell : Malformed → Malformed} (h : Follows c step q) :
    Follows c (tryCatch step fun f => throw (tell f)) (caught tell q) := by
  intro p hp
  rw [tryCatch_eq, caught]
  have htracks := h p hp
  generalize step p = outcome, q p.reader = result at htracks
  cases htracks with
  | ok hp' hs => exact .ok hp' hs
  | error hp' hs => exact .error hp' hs

structure NestedFollows (c : Context) (inner : Nested) (inner' : Grammar.Nested) : Prop where
  whole : Follows c inner.whole inner'.whole
  bracketed : Follows c inner.bracketed inner'.bracketed
  single : Follows c inner.single inner'.single
  basic : Follows c inner.basic inner'.basic

variable (ha : c.hierarchy.Absolute) (hn : NestedFollows c inner inner')
include ha hn

theorem follows_mask : Follows c (mask inner) (Grammar.mask c inner') := by
  have hmask : Grammar.mask c inner' = (do
      let t ← caught (fun f => { masks := f.masks + 1 }) inner'.basic
      if c.hierarchy.fits (.atom "int") t then pure () else throw { masks := 1 }) := by
    funext s
    change _ = (caught _ inner'.basic s).bind fun r =>
      (if c.hierarchy.fits (.atom "int") r.1 then pure ()
        else throw { masks := 1 } : Parse Unit) r.2
    unfold Grammar.mask caught
    cases inner'.basic s with
    | error f => rfl
    | ok r =>
      dsimp only [Except.bind]
      split <;> rfl
  rw [hmask]
  exact (follows_caught hn.basic).bind fun t => follows_ask (answers_fits ha _ t)
    (follows_ite (follows_pure ()) (follows_throw _))

theorem follows_int : Follows c (int inner) (Grammar.int c inner') := by
  have hmask := follows_mask ha hn
  have hend : Follows c (pure (DocType.atom "int")) (pure (.atom "int")) := follows_pure _
  refine follows_then _ fun w => follows_ite ?_ (follows_ite ?_ (follows_ite ?_ hend))
  · refine follows_then _ fun _ => follows_ite ?_ hend
    exact follows_then _ fun _ => follows_then _ fun _ => follows_then _ fun _ =>
      follows_then _ fun _ => follows_then _ fun _ => hend
  · exact follows_then _ fun _ => (follows_items hmask).bind fun _ => follows_then _ fun _ => hend
  · exact follows_then _ fun _ => hmask.bind fun _ => follows_then _ fun _ => hend

theorem follows_string : Follows c (string inner) (Grammar.string c inner') := by
  have hend : Follows c (pure (DocType.atom "string")) (pure (.atom "string")) := follows_pure _
  refine follows_then _ fun w => follows_ite ?_ hend
  refine follows_then _ fun _ => follows_ite ?_ hend
  refine follows_then _ fun _ => hn.whole.bind fun t => follows_ask (answers_fits ha _ t) ?_
  exact follows_ite (follows_then _ fun _ => hend) follows_fail_bind

theorem follows_array : Follows c (array inner) (Grammar.array c inner') := by
  have hend : Follows c (pure (DocType.atom "array")) (pure (.atom "array")) := follows_pure _
  have hclose : Follows c (do
      expect ">"
      pure (DocType.atom "array")) (do
      expect ">"
      pure (.atom "array")) := follows_then _ fun _ => hend
  refine follows_then _ fun w => follows_then _ fun _ => follows_ite ?_ ?_
  · refine follows_then _ fun _ => hn.whole.bind fun t => follows_then _ fun _ =>
      follows_ite (follows_ite follows_fail_bind (follows_ask (answers_fits ha _ t) ?_)) hclose
    refine follows_ite ?_ follows_fail_bind
    exact follows_then _ fun _ => hn.whole.bind fun _ => hclose
  · refine follows_then _ fun _ => follows_ite (follows_ite follows_fail_bind ?_) hend
    exact (follows_shape hn.whole _).bind fun _ => hend

omit ha in
theorem follows_callable : Follows c (callable inner) (Grammar.callable inner') := by
  refine follows_then _ fun l => follows_then _ fun _ => follows_ite ?_ (follows_pure _)
  refine follows_then _ fun _ => follows_ahead fun _ => (follows_parametersTo hn.whole _).bind
    fun _ => follows_then _ fun _ => follows_then _ fun _ => follows_ite ?_ ?_
  · exact hn.whole.bind fun _ => follows_pure _
  · exact hn.single.bind fun _ => follows_pure _

theorem follows_keyOrValue : Follows c (keyOrValue inner) (Grammar.keyOrValue c inner') := by
  have hend : Follows c (do return (← against).unknown) (pure c.unknown) :=
    follows_against (follows_pure _)
  refine follows_then _ fun _ => follows_then _ fun _ => hn.whole.bind fun t =>
    follows_ask (answers_or (answers_fits ha _ t) (answers_fits ha _ t)) (follows_ite ?_ ?_)
  · exact follows_then _ fun _ => hend
  · exact follows_fail_bind

omit ha in
theorem follows_className : Follows c (className inner) (Grammar.className c inner') := by
  have hend : ∀ name, Follows c (do return Grammar.classType (← against).scope name)
      (pure (Grammar.classType c.scope name)) := fun _ => follows_against (follows_pure _)
  refine follows_then _ fun l => follows_ite follows_fail_bind ?_
  refine follows_then _ fun _ => follows_ite ?_ (hend _)
  exact (follows_arguments hn.whole _).bind fun _ => hend _

/-- A basic type up to its suffix is read as the grammar does. -/
theorem follows_stem (k : Grammar.Construct) :
    Follows c (stem inner k) (Grammar.stem c inner' k) := by
  cases k with
  | bool | float | never => exact follows_then _ fun _ => follows_pure _
  | int => exact follows_int ha hn
  | string => exact follows_string ha hn
  | array => exact follows_array ha hn
  | object =>
    refine follows_then _ fun _ => follows_then _ fun _ => follows_ite ?_ (follows_pure _)
    exact (follows_shape hn.whole _).bind fun _ => follows_pure _
  | plain => exact follows_then _ fun _ => follows_pure _
  | self | parent => exact follows_then _ fun _ => follows_against (follows_pure _)
  | static => exact follows_against (follows_lift _)
  | callable => exact follows_callable hn
  | iterable =>
    refine follows_then _ fun _ => follows_then _ fun _ => follows_ite ?_ (follows_pure _)
    exact (follows_arguments hn.whole _).bind fun _ => follows_pure _
  | keyOrValue => exact follows_keyOrValue ha hn
  | className => exact follows_className hn

theorem follows_basic : Follows c (basic inner) (Grammar.basic c inner') := by
  refine follows_then _ fun o => follows_against ?_
  cases o.bind (Grammar.construct? c.scope) with
  | none => exact follows_lift fail
  | some k =>
    refine (follows_stem ha hn k).bind fun t => follows_then _ fun b => ?_
    cases b with
    | false => exact follows_pure t
    | true =>
      refine follows_ask (answers_superTypes ha t.text) (follows_ite ?_ (follows_pure t))
      exact follows_then _ fun _ => follows_then _ fun _ => follows_against (follows_pure _)

theorem follows_single : Follows c (single inner) (Grammar.single c inner') := by
  have hend : ∀ t, Follows c (do Grammar.bracketsTo t (← ahead).length)
      (do Grammar.bracketsTo t (← get).rest.length) :=
    fun t => follows_ahead fun _ => follows_lift _
  refine follows_then _ fun _ => follows_ite ?_ ((follows_basic ha hn).bind hend)
  exact follows_then _ fun _ => hn.bracketed.bind fun t => follows_then _ fun _ => hend t

omit hn in
theorem follows_meet (as : List String) :
    Follows c (do
      match ← Lattice.intersection as with
      | some m => return [m]
      | none => fail) (match c.hierarchy.intersection as with
      | some m => pure [m]
      | none => fail) := by
  refine follows_ask (answers_intersection ha as) ?_
  cases c.hierarchy.intersection as with
  | some m => exact follows_pure [m]
  | none => exact follows_lift fail

omit hn in
theorem follows_join (as : List String) :
    Follows c (match as with
      | [a] => pure [[a]]
      | as => do
        match ← Lattice.intersection as with
        | some m => return [m]
        | none => fail) (match as with
      | [a] => pure [[a]]
      | as =>
        match c.hierarchy.intersection as with
        | some m => pure [m]
        | none => fail) := by
  rcases as with _ | ⟨a, _ | ⟨b, as⟩⟩
  · exact follows_meet ha []
  · exact follows_pure [[a]]
  · exact follows_meet ha (a :: b :: as)

theorem follows_intersection : Follows c (intersection inner) (Grammar.intersection c inner') := by
  refine (follows_items (follows_single ha hn)).bind fun parts => ?_
  have hjoin := follows_join ha (parts.flatMap DocType.atoms)
  generalize parts.any DocType.isUnion = united
  rcases parts with _ | ⟨t, _ | ⟨u, parts⟩⟩ <;> cases united
  · exact hjoin
  · exact follows_lift fail
  · exact hjoin
  · exact follows_pure t.members
  · exact hjoin
  · exact follows_lift fail

theorem follows_whole : Follows c (whole inner) (Grammar.whole c inner') := by
  refine follows_then _ fun _ => follows_ite ?_ ?_
  · exact follows_then _ fun _ => (follows_single ha hn).bind fun t =>
      follows_answer (answers_union ha _)
  · exact (follows_items (follows_intersection ha hn)).bind fun ms =>
      follows_answer (answers_union ha _)

theorem follows_bracketed : Follows c (bracketed inner) (Grammar.bracketed c inner') := by
  refine follows_then _ fun o => follows_then _ fun _ => follows_ite ?_ (follows_whole ha hn)
  exact follows_then _ fun _ => follows_then _ fun _ => hn.whole.bind fun _ =>
    follows_then _ fun _ => hn.whole.bind fun t => follows_then _ fun _ => hn.whole.bind fun u =>
      follows_answer (answers_union ha _)

omit hn in
theorem nestedFollows (depth : Nat) :
    NestedFollows c (nested depth) (Grammar.nested c depth) := by
  induction depth with
  | zero => exact ⟨follows_lift fail, follows_lift fail, follows_lift fail, follows_lift fail⟩
  | succ depth ih =>
    exact ⟨follows_whole ha ih, follows_bracketed ha ih, follows_single ha ih, follows_basic ha ih⟩

omit hn in
/-- A parser reads the types that the grammar reads. -/
theorem follows_type : Follows c type (Grammar.type c) :=
  follows_ahead fun _ => (nestedFollows ha _).whole

end PhpDoc.Parser
