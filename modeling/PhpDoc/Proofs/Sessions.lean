import PhpDoc.Proofs.StatefulGrammar
import PhpDoc.Type.Session
/-!
Calls on one parser. No call influences another: each one is answered as by a fresh parser over a
fresh lattice, and whatever the lattice remembers is what its hierarchy says.
-/
namespace PhpDoc.Parser
open PhpDoc.Lattice
open TypedTag (endsType spell remainderOf seesNullDefault seesBound)

structure Stands (p : Parser) (c : Context) (s : Subject) (r : Reader) : Prop
    extends Serves p c where
  subject : p.subject = s
  reader : p.reader = r

def Moves {α : Type} (c : Context) (s : Subject) (step : StateM Parser α) (r : Reader) (a : α)
    (r' : Reader) : Prop :=
  ∀ p : Parser, p.Stands c s r → ∃ p' : Parser, step p = (a, p') ∧ p'.Stands c s r'

variable {α β : Type} {h : Hierarchy} {c : Context} {s : Subject} {r r' r'' : Reader}
  {p p' : Parser} {a : α} {b : β} {scope : Option Scope} {text : String} {wide : Bool}

theorem run_of_eq {step : StateM Parser α} {f : α → StateM Parser β} (h : step p = (a, p')) :
    (step >>= f) p = f a p' := by
  have hbind : (step >>= f) p = f (step p).1 (step p).2 := rfl
  rw [hbind, h]

theorem query_eq {query : Query α} (hq : Answers h query a) (hp : Coherent h p.lattice) :
    ∃ l, (liftM query : StateM Parser α) p = (a, { p with lattice := l }) ∧ Coherent h l := by
  obtain ⟨l, hl, hcoherent⟩ := hq p.lattice hp
  have hquery : (liftM query : StateM Parser α) p =
      ((query p.lattice).1, { p with lattice := (query p.lattice).2 }) := rfl
  exact ⟨l, by rw [hquery, hl], hcoherent⟩

theorem moves_pure (a : α) : Moves c s (pure a) r a r :=
  fun p hp => ⟨p, rfl, hp⟩

theorem Moves.bind {step : StateM Parser α} {f : α → StateM Parser β} (h : Moves c s step r a r')
    (hf : Moves c s (f a) r' b r'') : Moves c s (step >>= f) r b r'' := by
  intro p hp
  obtain ⟨p', heq, hp'⟩ := h p hp
  obtain ⟨p'', heq', hp''⟩ := hf p' hp'
  exact ⟨p'', (run_of_eq heq).trans heq', hp''⟩

theorem Moves.yields {step : StateM Parser α} {a' : α} (h : Moves c s step r a r') (ha : a = a') :
    Moves c s step r a' r' :=
  ha ▸ h

theorem moves_reader {f : Reader → StateM Parser β} (hf : Moves c s (f r) r b r') :
    Moves c s (do f (← getThe Parser).reader) r b r' := by
  intro p hp
  have hreader : (do f (← getThe Parser).reader : StateM Parser β) p = f p.reader p := rfl
  rw [hreader, hp.reader]
  exact hf p hp

theorem moves_remainder : Moves c s remainder r (remainderOf s.text s.stop r) r := by
  intro p hp
  have hremainder : remainder p = (remainderOf p.subject.text p.subject.stop p.reader, p) := rfl
  exact ⟨p, by rw [hremainder, hp.subject, hp.reader], hp⟩

theorem moves_query {query : Query α} (hq : Answers c.hierarchy query a) :
    Moves c s (liftM query) r a r := by
  intro p hp
  obtain ⟨l, heq, hl⟩ := query_eq hq hp.coherent
  exact ⟨_, heq, hp.toServes.withLattice hl, hp.subject, hp.reader⟩

/-- A failed attempt leaves no trace but what the lattice has learnt. -/
theorem moves_attempt {step : Step α} {result : Except Malformed (α × Reader)}
    (h : ∀ p : Parser, p.Stands c s r → Tracks c s (step p) result) :
    Moves c s (attempt step) r (result.map (·.1)) ((result.toOption.map (·.2)).getD r) := by
  intro p hp
  have hattempt : attempt step p = settle p.reader (step p).1 (step p).2 := rfl
  rw [hattempt]
  have htracks := h p hp
  generalize step p = outcome at htracks
  cases htracks with
  | ok hp' hs => exact ⟨_, rfl, hp', hs, rfl⟩
  | error hp' hs => exact ⟨_, rfl, ⟨hp'.context, hp'.coherent⟩, hs, hp.reader⟩

def reading (text : List Char) (e : Extent) (before : List Lexeme) (t : DocType) :
    Parse TypedTag.Reading := fun r =>
  let read := before.take (before.length - r.rest.length)
  match read, endsType e r.rest.head? with
  | first :: _, true =>
    let stop := (read.getLast?.map Lexeme.stop).getD first.stop
    .ok (⟨t, spell text r.words read, (first.start, stop)⟩, r)
  | _, _ => .error {}

theorem readType_eq (c : Context) (text : List Char) (e : Extent) (r : Reader) :
    TypedTag.readType c text e r = (Grammar.type c >>= reading text e r.rest) r := by
  change _ = (Grammar.type c r).bind fun result => reading text e r.rest result.1 result.2
  unfold TypedTag.readType
  cases Grammar.type c r <;> rfl

theorem setOff_eq (e : Extent) (before : List Lexeme) (t : DocType) (p : Parser) :
    setOff e before t p =
      let read := before.take (before.length - p.reader.rest.length)
      (match read, endsType e p.reader.rest.head? with
      | first :: _, true =>
        let stop := (read.getLast?.map Lexeme.stop).getD first.stop
        pure ⟨t, spell p.subject.text p.reader.words read, (first.start, stop)⟩
      | _, _ => Parse.fail : Step TypedTag.Reading) p :=
  rfl

theorem tracks_setOff (hp : p.Serves c) (e : Extent) (before : List Lexeme) (t : DocType) :
    Tracks c p.subject (setOff e before t p) (reading p.subject.text e before t p.reader) := by
  rw [setOff_eq, reading]
  dsimp only
  generalize before.take _ = read, endsType e p.reader.rest.head? = ended
  rcases read with _ | ⟨first, read⟩ <;> cases ended
  · exact .error hp rfl
  · exact .error hp rfl
  · exact .error hp rfl
  · exact .ok hp rfl

theorem tracks_readType (ha : c.hierarchy.Absolute) (hp : p.Stands c s r) (e : Extent) :
    Tracks c s (readType e p) (TypedTag.readType c s.text e r) := by
  rw [readType_eq, ← hp.subject, ← hp.reader]
  change Tracks c p.subject ((type >>= setOff e p.reader.rest) p) _
  refine Tracks.bind (follows_type ha p hp.toServes) fun t p' hp' hs => ?_
  rw [← hs]
  exact tracks_setOff hp' e p.reader.rest t

theorem moves_readType (ha : c.hierarchy.Absolute) (e : Extent)
    {result : Except Malformed (TypedTag.Reading × Reader)}
    (h : TypedTag.readType c s.text e r = result) :
    Moves c s (attempt (readType e)) r (result.map (·.1))
      ((result.toOption.map (·.2)).getD r) := by
  subst h
  exact moves_attempt fun p hp => tracks_readType ha hp e

theorem tracks_readVariable (hp : p.Stands c s r) (e : Extent) :
    Tracks c s (readVariable e p) (match TypedTag.readVariable e r with
      | some result => .ok result
      | none => .error {}) := by
  unfold readVariable
  rw [hp.reader]
  cases TypedTag.readVariable e r with
  | some result =>
    exact .ok (p := { p with reader := result.2 }) ⟨hp.context, hp.coherent⟩ hp.subject
  | none => exact .error hp.toServes hp.subject

def target (e : Extent) (r : Reader) : Option ((String × String) × Reader) :=
  if e.hasVariable then TypedTag.readVariable e r else none

theorem moves_readTarget (e : Extent) : Moves c s (readTarget e) r ((target e r).map (·.1))
    (((target e r).map (·.2)).getD r) := by
  unfold readTarget target
  split
  · refine (moves_attempt fun p hp => tracks_readVariable hp e).bind ?_
    cases TypedTag.readVariable e r <;> exact moves_pure _
  · exact moves_pure _

theorem moves_widened (ha : c.hierarchy.Absolute) (e : Extent)
    (reading : Except Malformed TypedTag.Reading) (target : Option (String × String)) :
    Moves c s (widened e reading target) r
      (reading.toOption.map fun read =>
        if e == .default && target.isSome && seesNullDefault r then
          c.hierarchy.union (read.type.members ++ [["null"]])
        else read.type) r := by
  cases reading with
  | error f => exact moves_pure none
  | ok read =>
    refine moves_reader (f := fun next =>
      if e == .default && target.isSome && seesNullDefault next then do
        return some (← Lattice.union (read.type.members ++ [["null"]]))
      else return some read.type) ?_
    dsimp only [Except.toOption, Option.map]
    split
    · exact (moves_query (answers_union ha _)).bind (moves_pure _)
    · exact moves_pure _

theorem moves_readTemplateName : Moves c s readTemplateName r (TypedTag.readTemplateName r).1
    (TypedTag.readTemplateName r).2 := by
  intro p hp
  refine ⟨{ p with reader := (TypedTag.readTemplateName r).2 }, ?_,
    ⟨hp.context, hp.coherent⟩, hp.subject, rfl⟩
  rw [← hp.reader]
  rfl

theorem moves_skipBound_true (hb : seesBound r.rest.head?) :
    Moves c s skipBound r true { r with rest := r.rest.tail } := by
  intro p hp
  refine ⟨{ p with reader := { r with rest := r.rest.tail } }, ?_,
    ⟨hp.context, hp.coherent⟩, hp.subject, rfl⟩
  rw [skipBound, hp.reader, if_pos hb]

theorem moves_skipBound_false (hb : ¬seesBound r.rest.head?) :
    Moves c s skipBound r false r := by
  intro p hp
  refine ⟨p, ?_, hp⟩
  rw [skipBound, hp.reader, if_neg hb]

def subjectOf (c : Context) (text : String) : Subject :=
  { scope := c.scope, wide := c.wide, text := text.toList, stop := (lex text).stop }

/-- A call begins in the same place whatever has been called before. -/
theorem Moves.started {m : StateM Parser α}
    (hm : Moves c (subjectOf c text) m { rest := (lex text).lexemes } a r)
    (hs : scope.getD {} = c.scope) (hw : wide = c.wide) (hp : Coherent c.hierarchy p.lattice) :
    ∃ p', (start scope text wide >>= fun _ => m) p = (a, p') ∧
      Coherent c.hierarchy p'.lattice := by
  let begun : Parser :=
    { p with subject := subjectOf c text, reader := { rest := (lex text).lexemes } }
  have hstart : (start scope text wide >>= fun _ => m) p = m begun := by
    have heq : (start scope text wide >>= fun _ => m) p =
      m { begun with subject := { begun.subject with scope := scope.getD {}, wide } } := rfl
    rw [heq, hs, hw]
    rfl
  have hcontext : begun.context = c := by
    rw [Parser.context, hp.hierarchy]
    rfl
  obtain ⟨p', heq, hp'⟩ := hm begun ⟨⟨hcontext, hp⟩, rfl, rfl⟩
  exact ⟨p', hstart.trans heq, hp'.coherent⟩

theorem read_eq (ha : c.hierarchy.Absolute) (text : String) (e : Extent)
    (hs : scope.getD {} = c.scope) (hw : wide = c.wide) (hp : Coherent c.hierarchy p.lattice) :
    ∃ p', read scope text e wide p = (TypedTag.read c text e, p') ∧
      Coherent c.hierarchy p'.lattice := by
  refine Moves.started (r := ?r) (Moves.yields (a := ?a) ?steps ?tag) hs hw hp
  case steps =>
    refine (moves_readType ha e rfl).bind <| (moves_readTarget e).bind ?_
    refine (moves_widened ha e _ _).bind <| moves_remainder.bind ?_
    exact moves_pure _
  case tag =>
    have htarget : ∀ after, (if e.hasVariable then TypedTag.readVariable e after else none) =
      target e after := fun _ => rfl
    simp only [TypedTag.read, htarget, Option.map_map, Option.isSome_map, subjectOf]
    cases TypedTag.readType c text.toList e { rest := (lex text).lexemes } <;> rfl

/-- Before a template no type word has been read. -/
theorem readTemplateName_words (ls : List Lexeme) :
    (TypedTag.readTemplateName { rest := ls }).2.words = [] := by
  unfold TypedTag.readTemplateName
  cases ls with
  | nil => rfl
  | cons l ls =>
    dsimp only
    split <;> rfl

theorem readTemplate_eq (ha : c.hierarchy.Absolute) (text : String)
    (hs : scope.getD {} = c.scope) (hw : false = c.wide) (hp : Coherent c.hierarchy p.lattice) :
    ∃ p', readTemplate scope text p = (TypedTag.readTemplate c text, p') ∧
      Coherent c.hierarchy p'.lattice := by
  have hname : Moves c (subjectOf c text) readTemplateName _ _ _ :=
    moves_readTemplateName (r := { rest := (lex text).lexemes })
  have hwords := readTemplateName_words (lex text).lexemes
  unfold readTemplate TypedTag.readTemplate
  dsimp only
  generalize TypedTag.readTemplateName { rest := (lex text).lexemes } = named at hname hwords
  split
  · next hb =>
    have hskip : Moves c (subjectOf c text) skipBound _ _ _ := moves_skipBound_true hb
    rw [hwords] at hskip
    split
    · next reading r hread =>
      have hbound := moves_readType (s := subjectOf c text) ha .type hread
      refine Moves.started (r := ?afterBounded) ?bounded hs hw hp
      case bounded =>
        refine hname.bind <| hskip.bind <| hbound.bind <| moves_remainder.bind ?_
        exact moves_pure _
    · next f hread =>
      have hbound := moves_readType (s := subjectOf c text) ha .type hread
      refine Moves.started (r := ?afterUnread) ?unread hs hw hp
      case unread =>
        refine hname.bind <| hskip.bind <| hbound.bind <| moves_remainder.bind ?_
        exact moves_pure _
  · next hb =>
    refine Moves.started (r := ?afterUnbounded) ?unbounded hs hw hp
    case unbounded =>
      refine hname.bind <| (moves_skipBound_false hb).bind <| moves_remainder.bind ?_
      exact moves_pure _

def Call.uncached (h : Hierarchy) : Call → Answer
  | .read scope text e wide =>
    .tag (TypedTag.read { scope := scope.getD {}, hierarchy := h, wide } text e)
  | .readTemplate scope text =>
    .tag (TypedTag.readTemplate { scope := scope.getD {}, hierarchy := h } text)
  | .superTypes base => .types (h.superTypes base)
  | .compare wide narrow => .holds (h.fits? (wide.map .ofText) (narrow.map .ofText))
  | .isObjectLike name => .holds (h.isObjectLike name)

/-- One call: whatever state the calls before it have left behind, the hierarchy alone answers it,
and the lattice stays coherent. -/
theorem answer_eq (ha : h.Absolute) (hp : Coherent h p.lattice) (call : Call) :
    ∃ p', answer call p = (call.uncached h, p') ∧ Coherent h p'.lattice := by
  cases call with
  | read scope text e wide =>
    obtain ⟨p', heq, hp'⟩ := read_eq (c := { scope := scope.getD {}, hierarchy := h, wide })
      ha text e rfl rfl hp
    exact ⟨p', run_of_eq heq, hp'⟩
  | readTemplate scope text =>
    obtain ⟨p', heq, hp'⟩ := readTemplate_eq (c := { scope := scope.getD {}, hierarchy := h })
      ha text rfl rfl hp
    exact ⟨p', run_of_eq heq, hp'⟩
  | superTypes base =>
    obtain ⟨l, heq, hl⟩ := query_eq (answers_superTypes ha base) hp
    exact ⟨_, run_of_eq heq, hl⟩
  | compare wide narrow =>
    obtain ⟨l, heq, hl⟩ := query_eq (answers_fits? ha (wide.map .ofText) (narrow.map .ofText)) hp
    exact ⟨_, run_of_eq heq, hl⟩
  | isObjectLike name =>
    obtain ⟨l, heq, hl⟩ := query_eq (answers_isObjectLike ha name) hp
    exact ⟨_, run_of_eq heq, hl⟩

/-- Many calls: each one finds the lattice coherent, by induction on the calls before it. -/
theorem answers_eq (ha : h.Absolute) (hp : Coherent h p.lattice) (calls : List Call) :
    ∃ p', answers calls p = (calls.map (Call.uncached h), p') ∧ Coherent h p'.lattice := by
  induction calls generalizing p with
  | nil => exact ⟨p, rfl, hp⟩
  | cons call calls ih =>
    obtain ⟨p', heq, hp'⟩ := answer_eq ha hp call
    obtain ⟨p'', heq', hp''⟩ := ih hp'
    exact ⟨p'', (run_of_eq heq).trans (run_of_eq heq'), hp''⟩

/-- Calls on one parser do not influence one another: each is answered as by a fresh parser, and
after any number of them all supertypes that the lattice knows are those that the hierarchy
gives. -/
theorem calls_independent (ha : h.Absolute) (calls : List Call) :
    ((answers calls).run (fresh h)).1 = calls.map (fun call => ((answer call).run (fresh h)).1) ∧
    ∀ n base supers,
      ((answers (calls.take n)).run (fresh h)).2.lattice.known.get? base = some supers →
      supers = h.superTypes base := by
  have hfresh : Coherent h (fresh h).lattice := coherent_new h
  refine ⟨?_, fun n base supers hknown => ?_⟩
  · obtain ⟨p', heq, -⟩ := answers_eq ha hfresh calls
    have hall : ∀ call, ((answer call).run (fresh h)).1 = call.uncached h := by
      intro call
      obtain ⟨p', heq, -⟩ := answer_eq ha hfresh call
      exact congrArg Prod.fst heq
    rw [List.map_congr_left fun call _ => hall call]
    exact congrArg Prod.fst heq
  · obtain ⟨p', heq, hp'⟩ := answers_eq ha hfresh (calls.take n)
    have hstate : ((answers (calls.take n)).run (fresh h)).2 = p' := congrArg Prod.snd heq
    rw [hstate] at hknown
    exact hp'.known base supers hknown

def kinship : Hierarchy :=
  [("\\A", ⟨some "\\B", ["\\I"]⟩), ("\\B", ⟨none, ["\\Countable"]⟩)]

def kinshipCalls : List Call := [
  .read none "array<int|\\A, self" .default false,
  .superTypes "static(\\A)",
  .read (some { className := some "\\A" }) "A&I|static|integer $x = null, a remark" .default true,
  .readTemplate none "T of key-of<\\A",
  .compare (some "\\I|\\Countable") (some "\\A"),
  .isObjectLike "\\A"]

theorem calls_independent_kinship :
    kinship.Absolute ∧
    ((answers kinshipCalls).run (fresh kinship)).1 =
      kinshipCalls.map (fun call => ((answer call).run (fresh kinship)).1) ∧
    ((answers (kinshipCalls.take 3)).run (fresh kinship)).2.lattice.known.get? "\\A" =
      some ["object", "\\B", "\\I", "\\Countable"] ∧
    ["object", "\\B", "\\I", "\\Countable"] = kinship.superTypes "\\A" := by
  have ha : kinship.Absolute := by
    unfold Hierarchy.Absolute
    decide
  have hknown : ((answers (kinshipCalls.take 3)).run (fresh kinship)).2.lattice.known.get? "\\A" =
    some ["object", "\\B", "\\I", "\\Countable"] := by decide +kernel
  have hcalls := calls_independent ha kinshipCalls
  exact ⟨ha, hcalls.1, hknown, hcalls.2 3 "\\A" _ hknown⟩

end PhpDoc.Parser
