import PhpDoc.Proofs.Advancing
import PhpDoc.Proofs.Restyling
import PhpDoc.Type.Session
/-!
The descent of the grammar. A rule uses another one with fewer lexemes ahead or further down a fixed
order, a loop goes round again with fewer lexemes ahead, and no reader gets past the end. So the
recursion of the grammar has exactly one solution, which is how types are read.
-/
namespace PhpDoc.Parser
open Parse PhpDoc.Lattice
open Grammar (Construct construct? constantName joins bracketsTo)

/-- The rules of the grammar: a type in parentheses, a whole type, an intersection, a type that is
no union, a basic type, and the constructs that a basic type may be. -/
inductive Rule
  | bracketed
  | whole
  | intersection
  | single
  | basic
  | stem (k : Construct)
deriving DecidableEq, Repr

namespace Rule

def rank : Rule → Nat
  | .bracketed => 5
  | .whole => 4
  | .intersection => 3
  | .single => 2
  | .basic => 1
  | .stem _ => 0

abbrev Result : Rule → Type
  | .intersection => List Member
  | _ => DocType

def read (inner : Nested) : (r : Rule) → Step r.Result
  | .bracketed => Parser.bracketed inner
  | .whole => Parser.whole inner
  | .intersection => Parser.intersection inner
  | .single => Parser.single inner
  | .basic => Parser.basic inner
  | .stem k => Parser.stem inner k

def BeginsAt : Rule → Parser → Prop
  | .stem k, p => p.reader.rest.head?.bind (construct? p.subject.scope) = some k
  | _, _ => True

/-- Where a rule may use another one: after it has consumed a lexeme, or further down the order. -/
structure MayUse (r : Rule) (p : Parser) (q : Rule) (p' : Parser) : Prop where
  descends : p'.remaining < p.remaining ∨ p'.remaining ≤ p.remaining ∧ q.rank < r.rank
  begins : q.BeginsAt p'

end Rule

abbrev Rules :=
  (r : Rule) → Step r.Result

namespace Rules

def nested (F : Rules) : Nested :=
  ⟨F .whole, F .bracketed, F .single, F .basic⟩

def meet (parts : List DocType) : Step (List Member) := do
  match parts, parts.any DocType.isUnion with
  | [t], true => return t.members
  | _, true => fail
  | _, false =>
    match parts.flatMap DocType.atoms with
    | [a] => return [[a]]
    | as =>
      match ← Lattice.intersection as with
      | some m => return [m]
      | none => fail

def constant (t : DocType) : Step DocType := do
  if ← sees "::" then
    if (← superTypes t.text).contains "object" then
      skip
      constantName
      return (← against).unknown
    else return t
  else return t

/-- One level of the grammar, with the use of other rules left open: `inner` is used for nested
expressions, `below` where a rule goes on to others. -/
def level (inner : Nested) (below : Rules) : Rules
  | .bracketed => do
    if (← next?).any (·.kind == .variable) && (← seesAt 1 "is") then
      skip
      skip
      let _ ← inner.whole
      expect "?"
      let first ← inner.whole
      expect ":"
      let second ← inner.whole
      union (first.members ++ second.members)
    else below .whole
  | .whole => do
    if ← sees "?" then
      skip
      let t ← below .single
      union (t.members ++ [["null"]])
    else
      let members ← items (below .intersection) (sees "|")
      union members.flatten
  | .intersection => do
    meet (← items (below .single) joins)
  | .single => do
    let t ←
      if ← sees "(" then do
        skip
        let t ← inner.bracketed
        expect ")"
        pure t
      else below .basic
    bracketsTo t (← ahead).length
  | .basic => do
    match (← next?).bind (construct? (← against).scope) with
    | none => fail
    | some k => constant (← below (.stem k))
  | .stem k => stem inner k

def unfold (F : Rules) : Rules :=
  level F.nested F

variable {inner inner' : Nested} {F F' : Rules} {p : Parser} {n : Nat} {r : Rule}

/-- The rules as they are defined go on to others only through their own level. -/
theorem level_read (inner : Nested) (r : Rule) :
    level inner (fun q => q.read inner) r = r.read inner := by
  cases r <;> rfl

theorem alike_meet (parts : List DocType) : Alike n 0 (meet parts) (meet parts) := by
  unfold meet
  split
  · exact alike_pure _
  · exact alike_fail
  · split
    · exact alike_pure _
    · refine (alike_query _).bind fun o => ?_
      cases o with
      | some m => exact alike_pure _
      | none => exact alike_fail

theorem alike_constant (t : DocType) : Alike n 0 (constant t) (constant t) := by
  refine (alike_sees _).bind fun _ => alike_ite ?_ (alike_pure t)
  refine (alike_query _).bind fun _ => alike_ite ?_ (alike_pure t)
  exact alike_skip.weaken.bind fun _ => (alike_yields Grammar.yields_constantName).bind fun _ =>
    alike_against.bind fun _ => alike_pure _

/-- What a rule does depends on the readers of nested expressions only where fewer lexemes are
ahead, and on other rules only where they are further down the order and begin. -/
theorem level_alikeAt (hn : NestedAlike p.remaining inner inner')
    (hb : ∀ q p', p'.remaining ≤ p.remaining → q.rank < r.rank → q.BeginsAt p' →
      AlikeAt 1 (F q) (F' q) p') : AlikeAt 1 (level inner F r) (level inner' F' r) p := by
  have hhere : ∀ {step step' : Step r.Result}, Alike (p.remaining + 1) 1 step step' →
      AlikeAt 1 step step' p := fun h => h p (Nat.lt_succ_self _)
  have hbelow : ∀ q : Rule, (∀ p', q.BeginsAt p') → q.rank < r.rank →
      Alike (p.remaining + 1) 1 (F q) (F' q) :=
    fun q hbegins hlt p' hp' => hb q p' (Nat.le_of_lt_succ hp') hlt (hbegins p')
  cases r with
  | bracketed =>
    have hwhole := hbelow .whole (fun _ => trivial) (by decide)
    refine hhere (alike_next?.bind fun _ => (alike_yields (yields_seesAt _ _)).bind fun _ =>
      alike_ite ?_ hwhole)
    exact alike_skip.after fun _ => alike_skip.weaken.bind fun _ => hn.whole.weaken.bind fun _ =>
      (alike_expect _).weaken.bind fun _ => hn.whole.weaken.bind fun _ =>
        (alike_expect _).weaken.bind fun _ => hn.whole.weaken.bind fun _ => alike_query _
  | whole =>
    have hsingle := hbelow .single (fun _ => trivial) (by decide)
    have hmember := hbelow .intersection (fun _ => trivial) (by decide)
    refine hhere ((alike_sees _).bind fun _ => alike_ite ?_ ?_)
    · refine alike_skip.after fun _ => Alike.bind ?_ fun _ => alike_query _
      exact hsingle.mono (Nat.le_succ _) (Nat.zero_le 1)
    · exact (alike_items hmember (yields_sees _)).after fun _ => alike_query _
  | intersection =>
    have hsingle := hbelow .single (fun _ => trivial) (by decide)
    exact hhere ((alike_items hsingle Grammar.yields_joins).after fun parts => alike_meet parts)
  | single =>
    have hbasic := hbelow .basic (fun _ => trivial) (by decide)
    have hend : ∀ t, Alike p.remaining 0 (do bracketsTo t (← ahead).length)
        (do bracketsTo t (← ahead).length) :=
      fun t => alike_ahead.bind fun _ => alike_bracketsTo t _
    refine hhere ((alike_sees _).bind fun _ => alike_ite ?_ (hbasic.after hend))
    exact alike_skip.after fun _ => hn.bracketed.weaken.bind fun t =>
      (alike_expect _).weaken.bind fun _ => hend t
  | basic =>
    -- the construct is the one that the next lexeme begins
    have hnext : ∀ (inner : Nested) (G : Rules), level inner G .basic p =
        (match p.reader.rest.head?.bind (construct? p.subject.scope) with
        | none => liftM (fail : Parse DocType)
        | some k => G (.stem k) >>= constant : Step DocType) p := fun _ _ => rfl
    cases hk : p.reader.rest.head?.bind (construct? p.subject.scope) with
    | none =>
      refine (alike_fail (n := p.remaining + 1) p (Nat.lt_succ_self _)).congr ?_ ?_
      · rw [hnext, hk]
      · rw [hnext, hk]
    | some k =>
      have hstem := hb (.stem k) p (Nat.le_refl _) Nat.zero_lt_one hk
      refine (hstem.bind fun t p' hlt => alike_constant t p' hlt).congr ?_ ?_
      · rw [hnext, hk]
      · rw [hnext, hk]
  | stem k => exact hhere (alike_stem hn k)

/-- What a rule does depends on other rules only where it may use them. Elsewhere the two families
may leave the parser in different states, so that any other use would show. -/
theorem unfold_alikeAt (h : ∀ q p', r.MayUse p q p' → AlikeAt 1 (F q) (F' q) p') :
    AlikeAt 1 (F.unfold r) (F'.unfold r) p := by
  have hfewer : ∀ q, q = .whole ∨ q = .bracketed ∨ q = .single ∨ q = .basic →
      Alike p.remaining 1 (F q) (F' q) := by
    rintro q (rfl | rfl | rfl | rfl) p' hp' <;> exact h _ p' ⟨.inl hp', trivial⟩
  have hnested : NestedAlike p.remaining F.nested F'.nested :=
    ⟨hfewer _ (by simp), hfewer _ (by simp), hfewer _ (by simp), hfewer _ (by simp)⟩
  exact level_alikeAt hnested fun q p' hle hlt hbegins => h q p' ⟨.inr ⟨hle, hlt⟩, hbegins⟩

end Rules

open Rules

def rules : Rules := fun r => do
  r.read (nested (← ahead).length)

variable {inner inner' : Nested} {p : Parser} {n depth depth' : Nat} {r : Rule} {F : Rules}

theorem alike_read (hn : NestedAlike n inner inner') (r : Rule) :
    Alike (n + 1) 1 (r.read inner) (r.read inner') := by
  intro p hp
  rw [← level_read inner, ← level_read inner']
  refine level_alikeAt (hn.mono (Nat.le_of_lt_succ hp)) fun q p' hle hlt _ => ?_
  exact alike_read hn q p' (Nat.lt_of_le_of_lt hle hp)
termination_by r.rank

/-- Readers of deep and of deeper expressions are alike where few lexemes are ahead. -/
theorem nestedAlike_nested (hd : n ≤ depth) (hd' : n ≤ depth') :
    NestedAlike n (nested depth) (nested depth') := by
  induction n generalizing depth depth' with
  | zero => exact ⟨alike_zero, alike_zero, alike_zero, alike_zero⟩
  | succ n ih =>
    obtain ⟨k, rfl⟩ : ∃ k, depth = k + 1 := ⟨depth - 1, by omega⟩
    obtain ⟨k', rfl⟩ : ∃ k', depth' = k' + 1 := ⟨depth' - 1, by omega⟩
    have hread := alike_read (ih (Nat.le_of_succ_le_succ hd) (Nat.le_of_succ_le_succ hd'))
    exact ⟨hread .whole, hread .bracketed, hread .single, hread .basic⟩

/-- The number of levels does not matter if there are as many as lexemes ahead. -/
theorem alikeAt_rules (r : Rule) (hp : p.remaining ≤ depth) :
    AlikeAt 1 (r.read (nested depth)) (rules r) p :=
  have hread := alike_read (nestedAlike_nested hp (Nat.le_refl _)) r
  (hread p (Nat.lt_succ_self _)).congr rfl rfl

theorem rules_alikeAt (r : Rule) (p : Parser) : AlikeAt 1 (rules r) (rules r) p :=
  have hread := alike_read (nestedAlike_nested (Nat.le_refl p.remaining) (Nat.le_refl _)) r
  (hread p (Nat.lt_succ_self _)).congr rfl rfl

theorem nestedAlike_rules (n : Nat) : NestedAlike n (nested n) rules.nested := by
  cases n with
  | zero => exact ⟨alike_zero, alike_zero, alike_zero, alike_zero⟩
  | succ n =>
    have hread : ∀ r : Rule, Alike (n + 1) 1 (r.read (nested n)) (rules r) :=
      fun r p hp => alikeAt_rules r (Nat.le_of_lt_succ hp)
    exact ⟨hread .whole, hread .bracketed, hread .single, hread .basic⟩

/-- The rules solve the recursion equations of the grammar. -/
theorem unfold_rules : rules.unfold = rules := by
  funext r p
  have hhere : AlikeAt 1 (level (nested p.remaining) (fun q => q.read (nested p.remaining)) r)
      (level rules.nested rules r) p :=
    level_alikeAt (nestedAlike_rules p.remaining) fun q p' hle _ _ => alikeAt_rules q hle
  rw [level_read] at hhere
  exact hhere.same.symm

/-- Any solution is alike, by induction on the lexemes ahead and on the order of the rules. -/
theorem alikeAt_of_unfold (hF : F.unfold = F) (r : Rule) (p : Parser) :
    AlikeAt 1 (rules r) (F r) p := by
  have hstep : AlikeAt 1 (rules.unfold r) (F.unfold r) p :=
    unfold_alikeAt fun q p' huse => alikeAt_of_unfold hF q p'
  rwa [unfold_rules, hF] at hstep
termination_by (p.remaining, r.rank)
decreasing_by
  obtain hlt | ⟨hle, hlt⟩ := huse.descends
  · exact .left _ _ hlt
  · obtain hlt' | heq := Nat.lt_or_eq_of_le hle
    · exact .left _ _ hlt'
    · rw [heq]
      exact .right _ hlt

theorem eq_rules (hF : F.unfold = F) : F = rules := by
  funext r p
  exact (alikeAt_of_unfold hF r p).same.symm

def Descends {ι α : Type} (round : (ι → Step α) → ι → Step α) : Prop :=
  ∀ again again' i p,
    (∀ j p', p'.remaining < p.remaining → AlikeAt 0 (again j) (again' j) p') →
      AlikeAt 0 (round again i) (round again' i) p

/-- A loop comes to an end, and is the only one that goes round like this. -/
structure Ends {ι α : Type} (round : (ι → Step α) → ι → Step α) (loop : ι → Step α) : Prop where
  descends : Descends round
  unfolds : round loop = loop
  unique : ∀ other, round other = other → other = loop

def throughout {ι α : Type} (loop : Nat → ι → Step α) (i : ι) : Step α := do
  loop (← ahead).length i

section
variable {ι α : Type} {round : (ι → Step α) → ι → Step α} {loop : Nat → ι → Step α}
  {bound : Nat}

theorem descends_of_alike (h : ∀ n again again', (∀ j, Alike n 0 (again j) (again' j)) →
    ∀ i, Alike (n + 1) 0 (round again i) (round again' i)) : Descends round :=
  fun _ _ i p hagain => h p.remaining _ _ (fun j => hagain j) i p (Nat.lt_succ_self _)

/-- Steps that go round alike are alike, by induction on the lexemes ahead. -/
theorem Descends.eq_of_unfolds {step step' : ι → Step α} (hd : Descends round)
    (h : round step = step) (h' : round step' = step') : step = step' := by
  have halike : ∀ n i, Alike n 0 (step i) (step' i) := by
    intro n
    induction n with
    | zero => exact fun _ => alike_zero
    | succ n ih =>
      intro i p hp
      have hround := hd step step' i p fun j p' hp' => ih j p' (by omega)
      rwa [h, h'] at hround
  funext i p
  exact (halike (p.remaining + 1) i p (Nat.lt_succ_self _)).same

section
variable (hd : Descends round)
  (hzero : ∀ i p, p.remaining = 0 → AlikeAt 0 (loop 0 i) (loop 1 i) p)
  (hsucc : ∀ bound, loop (bound + 1) = round (loop bound))
include hd hzero hsucc

/-- A loop of as many rounds as lexemes are ahead does the same with one more. -/
theorem alikeAt_succ (i : ι) (hp : p.remaining ≤ bound) :
    AlikeAt 0 (loop bound i) (loop (bound + 1) i) p := by
  induction bound generalizing i p with
  | zero => exact hzero i p (Nat.le_zero.mp hp)
  | succ bound ih =>
    rw [hsucc (bound + 1), hsucc bound]
    refine hd _ _ i p fun j p' hp' => ?_
    rw [← hsucc]
    exact ih j (by omega)

/-- Further rounds do not matter. -/
theorem alikeAt_throughout (i : ι) (hp : p.remaining ≤ bound) :
    AlikeAt 0 (throughout loop i) (loop bound i) p := by
  induction hp with
  | refl => exact (alikeAt_succ hd hzero hsucc i (Nat.le_refl _)).left.congr rfl rfl
  | step hp ih => exact ih.trans (alikeAt_succ hd hzero hsucc i hp)

variable (loop) in
/-- A loop ends if it may go round as often as lexemes are ahead. -/
theorem ends_throughout : Ends round (throughout loop) := by
  have hunfolds : round (throughout loop) = throughout loop := by
    funext i p
    have hrounds := hd _ _ i p fun j p' hp' =>
      alikeAt_throughout hd hzero hsucc j (Nat.le_of_lt hp')
    have hbound := alikeAt_throughout hd hzero hsucc i (Nat.le_succ p.remaining)
    rw [hsucc] at hbound
    exact hrounds.same.trans hbound.same.symm
  exact ⟨hd, hunfolds, fun _ hother => hd.eq_of_unfolds hother hunfolds⟩

end

/-- A loop that may go round once more ends even if it fails without a round left. -/
theorem ends_throughout_succ (loop : Nat → ι → Step α) (hd : Descends round)
    (hsucc : ∀ bound, loop (bound + 1) = round (loop bound)) :
    Ends round (throughout fun bound => loop (bound + 1)) := by
  refine ends_throughout _ hd (fun i p hp => ?_) fun _ => hsucc _
  rw [hsucc 0, hsucc 1]
  exact hd _ _ i p fun _ _ hp' => by omega

end

/-- The loops of the grammar with what they do in a round: members of a union, parts of an
intersection, operands of a bit mask, type arguments of which a number may be left, entries of a
shape, parameters of a callable, and pairs of square brackets after a type. -/
inductive IsLoop : {ι α : Type} → ((ι → Step α) → ι → Step α) → (ι → Step α) → Prop
  | members : IsLoop (fun again _ => itemsRound (rules .intersection) (sees "|") (again ()))
      fun _ => items (rules .intersection) (sees "|")
  | parts : IsLoop (fun again _ => itemsRound (rules .single) joins (again ()))
      fun _ => items (rules .single) joins
  | masks : IsLoop (fun again _ => itemsRound (mask rules.nested) (sees ",") (again ()))
      fun _ => items (mask rules.nested) (sees ",")
  | arguments : IsLoop
      (fun again left => argumentsRound rules.nested (left = some 0) (again (left.map (· - 1))))
      fun left => do argumentsTo rules.nested (left.getD (← ahead).length + 1)
  | entries : IsLoop (fun again keyed => entriesRound rules.nested keyed (again keyed))
      fun keyed => do entriesTo rules.nested keyed ((← ahead).length + 1)
  | parameters : IsLoop (fun again _ => parametersRound rules.nested (again ()))
      fun _ => do parametersTo rules.nested ((← ahead).length + 1)
  | brackets : IsLoop (fun again t => bracketsRound t (again (.atom "array")))
      fun t => do bracketsTo t (← ahead).length

section
variable {more : Parse Bool}

theorem ends_items {α : Type} {item : Step α} (hi : ∀ n, Alike n 1 item item)
    (hm : Yields (fun _ => True) more fun _ => True) :
    Ends (fun again (_ : Unit) => itemsRound item more (again ())) fun _ => items item more := by
  have hd : Descends fun again (_ : Unit) => itemsRound item more (again ()) :=
    descends_of_alike fun n _ _ h _ => (alike_itemsRound (hi (n + 1)) hm (h ())).weaken
  exact ends_throughout_succ (fun bound _ => itemsTo item more bound) hd fun _ => rfl

variable (hw : ∀ n, Alike n 1 inner.whole inner.whole)
include hw

/-- Type arguments need a lexeme each, so the last one that may be read comes before the end. -/
theorem ends_arguments :
    Ends (fun again left => argumentsRound inner (left = some 0) (again (left.map (· - 1))))
      fun left => (do argumentsTo inner (left.getD (← ahead).length + 1)) := by
  have hd : Descends fun again left =>
      argumentsRound inner (left = some 0) (again (left.map (· - 1))) :=
    descends_of_alike fun n _ _ h _ => (alike_argumentsRound (hw (n + 1)) _ (h _)).weaken
  refine ends_throughout (fun bound left => argumentsTo inner (Option.getD left bound + 1)) hd
    (fun left p hp => ?_) fun bound => funext fun left => ?_
  · cases left with
    | none =>
      have hnone : ∀ last last' again again', AlikeAt (1 + 0) (argumentsRound inner last again)
          (argumentsRound inner last' again') p :=
        fun _ _ _ _ => (hw 1 p (by omega)).bind fun _ p' hp' => by omega
      exact (hnone _ _ _ _).mono (Nat.zero_le 1)
    | some left => exact (alike_argumentsTo (hw 1) _).weaken p (by omega)
  · rcases left with _ | _ | left
    · rfl
    · exact argumentsRound_last _ _ _
    · rfl

theorem ends_entries : Ends (fun again keyed => entriesRound inner keyed (again keyed))
    fun keyed => (do entriesTo inner keyed ((← ahead).length + 1)) := by
  have hd : Descends fun again keyed => entriesRound inner keyed (again keyed) :=
    descends_of_alike fun n _ _ h keyed =>
      (alike_entriesRound (hw (n + 1)) keyed (h keyed)).weaken
  exact ends_throughout_succ (fun bound keyed => entriesTo inner keyed bound) hd fun _ => rfl

theorem ends_parameters : Ends (fun again (_ : Unit) => parametersRound inner (again ()))
    fun _ => (do parametersTo inner ((← ahead).length + 1)) := by
  have hd : Descends fun again (_ : Unit) => parametersRound inner (again ()) :=
    descends_of_alike fun n _ _ h _ => (alike_parametersRound (hw (n + 1)) (h ())).weaken
  exact ends_throughout_succ (fun bound _ => parametersTo inner bound) hd fun _ => rfl

end

/-- Pairs of square brackets, of which none is left without lexemes. -/
theorem ends_brackets : Ends (fun again t => bracketsRound t (again (.atom "array")))
    fun t => (do bracketsTo t (← ahead).length) := by
  have hd : Descends fun again t => bracketsRound t (again (.atom "array")) :=
    descends_of_alike fun _ _ _ h t => alike_bracketsRound t (h _)
  refine ends_throughout (fun bound t => liftM (bracketsTo t bound)) hd (fun t p hp => ?_)
    fun bound => funext fun t => lift_bracketsTo_succ t bound
  have hnone : (p.reader.shows 0 "[" && p.reader.shows 1 "]") = false := by
    rw [Reader.shows, List.length_eq_zero_iff.mp hp]
    rfl
  refine (alike_bracketsTo t 0 p (Nat.lt_succ_self _)).congr rfl ?_
  rw [lift_eq, lift_eq, Grammar.bracketsTo_of_shows hnone, Grammar.bracketsTo_of_shows hnone]

theorem ends_of_isLoop {ι α : Type} {round : (ι → Step α) → ι → Step α} {loop : ι → Step α}
    (h : IsLoop round loop) : Ends round loop := by
  have hrule : ∀ r n, Alike n 1 (rules r) (rules r) := fun r _ p _ => rules_alikeAt r p
  have hwhole : ∀ n, Alike n 1 rules.nested.whole rules.nested.whole := hrule .whole
  cases h with
  | members => exact ends_items (hrule .intersection) (yields_sees _)
  | parts => exact ends_items (hrule .single) Grammar.yields_joins
  | masks => exact ends_items (fun n => alike_mask (hrule .basic n)) (yields_sees _)
  | arguments => exact ends_arguments hwhole
  | entries => exact ends_entries hwhole
  | parameters => exact ends_parameters hwhole
  | brackets => exact ends_brackets

/-- From an index of some lexemes a step comes to the same index or to a later one, at most to the
end of the lexemes, and to a later one if it succeeds. -/
def InBounds {α : Type} (step : Step α) (p : Parser) : Prop :=
  ∀ (ls : List Lexeme) (i : Nat), i ≤ ls.length → p.reader.rest = ls.drop i →
    ∃ j, i ≤ j ∧ j ≤ ls.length ∧ (step p).2.reader.rest = ls.drop j ∧
      ∀ a, (step p).1 = .ok a → i < j

theorem AlikeAt.inBounds {α : Type} {step step' : Step α} (h : AlikeAt 1 step step' p) :
    InBounds step p := by
  intro ls i hi hrest
  have hsuffix : (step p).2.reader.rest <:+ ls := (hrest ▸ h.within).trans (List.drop_suffix i ls)
  have hle : (step p).2.reader.rest.length ≤ ls.length - i := by
    rw [← List.length_drop, ← hrest]
    exact h.within.length_le
  refine ⟨_, ?_, Nat.sub_le _ _, List.suffix_iff_eq_drop.mp hsuffix, fun a ha => ?_⟩
  · omega
  · have hgain := h.gain a ha
    rw [remaining, remaining, hrest, List.length_drop] at hgain
    omega

/-- The signs before a variable may be missing. -/
theorem suffix_sign (e : Extent) (text : String) (s : Reader) :
    (TypedTag.sign e text s).2.rest <:+ s.rest := by
  unfold TypedTag.sign
  split
  · next hrest =>
    split
    · rw [hrest]
      exact List.suffix_cons _ _
    · exact List.suffix_rfl
  · exact List.suffix_rfl

theorem gain_readVariable {e : Extent} {s t : Reader} {x : String × String}
    (h : TypedTag.readVariable e s = some (x, t)) :
    t.rest <:+ s.rest ∧ t.rest.length + 1 ≤ s.rest.length := by
  have hsigns := (suffix_sign e "..." (TypedTag.sign e "&" s).2).trans (suffix_sign e "&" s)
  rw [TypedTag.readVariable_eq] at h
  split at h
  · next l rest hrest =>
    rw [hrest] at hsigns
    split at h
    · cases h
      exact ⟨(List.suffix_cons l rest).trans hsigns, hsigns.length_le⟩
    · cases h
  · cases h

theorem alike_readVariable (e : Extent) : Alike n 1 (readVariable e) (readVariable e) := by
  intro p _
  cases hread : TypedTag.readVariable e p.reader with
  | none =>
    have hstep : readVariable e p = (.error {}, p) := by
      rw [readVariable, hread]
    exact ⟨rfl, hstep ▸ List.suffix_rfl, fun a ha => by simp [hstep] at ha⟩
  | some result =>
    have hstep : readVariable e p = (.ok result.1, { p with reader := result.2 }) := by
      rw [readVariable, hread]
    have hgain := gain_readVariable hread
    exact ⟨rfl, hstep ▸ hgain.1, fun _ _ => hstep ▸ hgain.2⟩

/-- Reading types ends. The rules of the grammar are the only solution of its recursion, in which a
rule uses others with fewer lexemes ahead or further down their order, and the bound on the depth of
expressions is never met; loops consume a lexeme in each round; and readers stay in bounds. This is
about the recursion itself: an interpreter may bound how deep calls are nested, and such a bound is
no part of the model. -/
theorem reading_ends :
    (type = rules .whole ∧
      (∀ (r : Rule) (p : Parser) (depth : Nat), p.remaining ≤ depth →
        r.read (nested depth) p = rules r p) ∧
      rules.unfold = rules ∧ ∀ F : Rules, F.unfold = F → F = rules) ∧
    (∀ (F F' : Rules) (r : Rule) (p : Parser),
      (∀ q p', r.MayUse p q p' → AlikeAt 1 (F q) (F' q) p') →
        AlikeAt 1 (F.unfold r) (F'.unfold r) p) ∧
    (∀ {ι α : Type} {round : (ι → Step α) → ι → Step α} {loop : ι → Step α},
      IsLoop round loop → Ends round loop) ∧
    (∀ (r : Rule) (p : Parser), r.BeginsAt p → InBounds (rules r) p) ∧
    ∀ p : Parser, (∀ keyed, InBounds (shape rules.nested keyed) p) ∧
      (∀ most, InBounds (arguments rules.nested most) p) ∧ ∀ e, InBounds (readVariable e) p := by
  have hwhole : ∀ n, Alike n 1 rules.nested.whole rules.nested.whole :=
    fun _ p _ => rules_alikeAt .whole p
  refine ⟨⟨rfl, fun r p depth hp => (alikeAt_rules r hp).same, unfold_rules, fun F => eq_rules⟩,
    fun F F' r p => unfold_alikeAt, ends_of_isLoop, fun r p _ => (rules_alikeAt r p).inBounds,
    fun p => ⟨fun keyed => ?_, fun most => ?_, fun e => ?_⟩⟩
  · exact (alike_shape (hwhole _) keyed p (Nat.lt_succ_self _)).inBounds
  · exact (alike_arguments (hwhole _) most p (Nat.lt_succ_self _)).inBounds
  · exact (alike_readVariable e p (Nat.lt_succ_self _)).inBounds

end PhpDoc.Parser
