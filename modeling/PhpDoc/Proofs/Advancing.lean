import PhpDoc.Proofs.AttachedGrammar
import PhpDoc.Proofs.StatefulGrammar
/-!
How far a parser gets. A step leaves an end of the lexemes ahead, also if it fails, and a construct
depends on the readers of nested expressions only with fewer lexemes ahead than it has found. Both
are told at once: two runs with different readers are alike as long as these are.
-/
namespace PhpDoc.Parser
open Parse

def remaining (p : Parser) : Nat :=
  p.reader.rest.length

/-- Two steps do the same from a parser. They leave an end of the lexemes ahead, and if they succeed
they have consumed at least `d` of them. -/
structure AlikeAt {α : Type} (d : Nat) (step step' : Step α) (p : Parser) : Prop where
  same : step p = step' p
  within : (step p).2.reader.rest <:+ p.reader.rest
  gain : ∀ a, (step p).1 = .ok a → (step p).2.remaining + d ≤ p.remaining

def Alike {α : Type} (n d : Nat) (step step' : Step α) : Prop :=
  ∀ p : Parser, p.remaining < n → AlikeAt d step step' p

variable {α β : Type} {n m d e : Nat} {step step' : Step α} {f f' : α → Step β} {p : Parser}

theorem AlikeAt.mono (h : AlikeAt d step step' p) (he : e ≤ d) : AlikeAt e step step' p :=
  ⟨h.same, h.within, fun a ha => by have := h.gain a ha; omega⟩

theorem AlikeAt.left (h : AlikeAt d step step' p) : AlikeAt d step step p :=
  ⟨rfl, h.within, h.gain⟩

theorem AlikeAt.trans {other : Step α} (h : AlikeAt d step step' p) (h' : AlikeAt e step' other p) :
    AlikeAt d step other p :=
  ⟨h.same.trans h'.same, h.within, h.gain⟩

theorem AlikeAt.congr {other other' : Step α} (h : AlikeAt d step step' p) (ho : other p = step p)
    (ho' : other' p = step' p) : AlikeAt d other other' p :=
  ⟨ho.trans (h.same.trans ho'.symm), ho ▸ h.within, ho ▸ h.gain⟩

theorem AlikeAt.bind (h : AlikeAt d step step' p)
    (hf : ∀ a p', p'.remaining + d ≤ p.remaining → AlikeAt e (f a) (f' a) p') :
    AlikeAt (d + e) (step >>= f) (step' >>= f') p := by
  have hbind : (step >>= f) p = ExceptT.bindCont f (step p).1 (step p).2 := rfl
  have hbind' : (step' >>= f') p = ExceptT.bindCont f' (step' p).1 (step' p).2 := rfl
  obtain ⟨hsame, hwithin, hgain⟩ := h
  rw [← hsame] at hbind'
  generalize step p = outcome at hbind hbind' hwithin hgain
  obtain ⟨_ | a, p'⟩ := outcome
  · exact ⟨hbind.trans hbind'.symm, by rw [hbind]; exact hwithin, fun b hb => by
      rw [hbind] at hb
      cases hb⟩
  · have hgained : p'.remaining + d ≤ p.remaining := hgain a rfl
    have hrest := hf a p' hgained
    replace hbind : (step >>= f) p = f a p' := hbind
    replace hbind' : (step' >>= f') p = f' a p' := hbind'
    refine ⟨?_, ?_, fun b hb => ?_⟩
    · rw [hbind, hbind', hrest.same]
    · rw [hbind]
      exact hrest.within.trans hwithin
    · rw [hbind] at hb ⊢
      have := hrest.gain b hb
      omega

theorem alike_zero : Alike 0 d step step' :=
  fun _ hp => absurd hp (Nat.not_lt_zero _)

theorem Alike.mono (h : Alike n d step step') (hm : m ≤ n) (he : e ≤ d) : Alike m e step step' :=
  fun p hp => (h p (Nat.lt_of_lt_of_le hp hm)).mono he

theorem Alike.weaken (h : Alike n 1 step step') : Alike n 0 step step' :=
  h.mono (Nat.le_refl n) (Nat.zero_le 1)

/-- A second step goes on from wherever the first one has come to. -/
theorem Alike.bind (h : Alike n 0 step step') (hf : ∀ a, Alike n d (f a) (f' a)) :
    Alike n d (step >>= f) (step' >>= f') := fun p hp =>
  ((h p hp).bind fun a p' hp' => hf a p' (by omega)).mono (by omega)

/-- After a step that has consumed a lexeme the second one has fewer of them ahead. -/
theorem Alike.after (h : Alike (n + 1) 1 step step') (hf : ∀ a, Alike n 0 (f a) (f' a)) :
    Alike (n + 1) 1 (step >>= f) (step' >>= f') := fun p hp =>
  (h p hp).bind fun a p' hp' => hf a p' (by omega)

theorem alike_ite {b : Prop} [Decidable b] {other other' : Step α} (h : Alike n d step step')
    (h' : Alike n d other other') :
    Alike n d (if b then step else other) (if b then step' else other') := by
  split
  · exact h
  · exact h'

theorem alike_pure (a : α) : Alike n 0 (pure a) (pure a) :=
  fun _ _ => ⟨rfl, List.suffix_rfl, fun _ _ => Nat.le_refl _⟩

theorem alike_throw (t : Malformed) : Alike n d (throw t : Step α) (throw t) :=
  fun _ _ => ⟨rfl, List.suffix_rfl, nofun⟩

/-- A step that asks nothing goes as far as it does without a lattice. -/
theorem alike_lift {q : Parse α}
    (h : ∀ s a t, q s = .ok (a, t) → t.rest <:+ s.rest ∧ t.rest.length + d ≤ s.rest.length) :
    Alike n d (liftM q) (liftM q) := by
  intro p _
  refine ⟨rfl, ?_, ?_⟩
  · rw [lift_eq]
    split
    · exact (h _ _ _ ‹_›).1
    · exact List.suffix_rfl
  · intro a ha
    rw [lift_eq] at ha ⊢
    split at ha
    · exact (h _ _ _ ‹_›).2
    · cases ha

theorem alike_yields {q : Parse α} {P : α → Prop} (h : Yields (fun _ => True) q P) :
    Alike n 0 (liftM q) (liftM q) :=
  alike_lift fun s a t hq =>
    have hrest := (h s a t (fun _ _ => trivial) hq).2
    ⟨hrest, hrest.length_le⟩

theorem alike_fail : Alike n d (liftM (fail : Parse α)) (liftM (fail : Parse α)) :=
  alike_lift fun _ _ _ h => absurd h fail_ne_ok

theorem alike_fail_bind :
    Alike n d (liftM (fail : Parse α) >>= f) (liftM (fail : Parse α) >>= f') :=
  fun _ _ => ⟨rfl, List.suffix_rfl, nofun⟩

theorem alike_sees (text : String) : Alike n 0 (liftM (sees text)) (liftM (sees text)) :=
  alike_yields (yields_sees text)

theorem alike_accept (text : String) : Alike n 0 (liftM (accept text)) (liftM (accept text)) :=
  alike_yields (yields_accept text)

theorem alike_next? : Alike n 0 (liftM next?) (liftM next?) :=
  alike_yields yields_next?

theorem gain_take {s t : Reader} {l : Lexeme} (h : take s = .ok (l, t)) :
    t.rest <:+ s.rest ∧ t.rest.length + 1 ≤ s.rest.length := by
  unfold take at h
  split at h
  · cases h
  · next hrest =>
    cases h
    rw [hrest]
    exact ⟨List.suffix_cons _ _, Nat.le_refl _⟩

/-- A reading that goes on after a step that consumes a lexeme. -/
theorem gain_bind {q : Parse α} {g : α → Parse β} {P : β → Prop}
    (hq : ∀ s a t, q s = .ok (a, t) → t.rest <:+ s.rest ∧ t.rest.length + 1 ≤ s.rest.length)
    (hg : ∀ a, Yields (fun _ => True) (g a) P) {s t : Reader} {b : β}
    (h : (q >>= g) s = .ok (b, t)) : t.rest <:+ s.rest ∧ t.rest.length + 1 ≤ s.rest.length := by
  obtain ⟨a, u, hfirst, hrest⟩ := bind_eq_ok.mp h
  obtain ⟨hu, hlt⟩ := hq s a u hfirst
  have hsuffix := (hg a u b t (fun _ _ => trivial) hrest).2
  have hle := hsuffix.length_le
  exact ⟨hsuffix.trans hu, by omega⟩

theorem gain_skip {s t : Reader} {a : Unit} (h : skip s = .ok (a, t)) :
    t.rest <:+ s.rest ∧ t.rest.length + 1 ≤ s.rest.length :=
  gain_bind (fun _ _ _ => gain_take) (fun _ => yields_pure (P := fun _ => True) trivial) h

theorem alike_take : Alike n 1 (liftM take) (liftM take) :=
  alike_lift fun _ _ _ => gain_take

theorem alike_skip : Alike n 1 (liftM skip) (liftM skip) :=
  alike_lift fun _ _ _ => gain_skip

theorem alike_word : Alike n 1 (liftM word) (liftM word) := by
  refine alike_lift fun s a t h => ?_
  unfold word at h
  split at h
  · cases h
  · next hrest =>
    cases h
    rw [hrest]
    exact ⟨List.suffix_cons _ _, Nat.le_refl _⟩

theorem alike_expect (text : String) : Alike n 1 (liftM (expect text)) (liftM (expect text)) := by
  refine alike_lift fun s a t h => ?_
  obtain ⟨b, u, hsees, hrest⟩ := bind_eq_ok.mp h
  cases hsees
  split at hrest
  · exact gain_skip hrest
  · exact absurd hrest fail_ne_ok

theorem alike_query (query : Query α) :
    Alike n 0 (liftM query : Step α) (liftM query) :=
  fun _ _ => ⟨rfl, List.suffix_rfl, fun _ _ => Nat.le_refl _⟩

theorem alike_against : Alike n 0 against against :=
  fun _ _ => ⟨rfl, List.suffix_rfl, fun _ _ => Nat.le_refl _⟩

theorem alike_ahead : Alike n 0 ahead ahead :=
  fun _ _ => ⟨rfl, List.suffix_rfl, fun _ _ => Nat.le_refl _⟩

/-- A failure that is told in another way. -/
theorem alike_caught {tell : Malformed → Malformed} (h : Alike n d step step') :
    Alike n d (tryCatch step fun t => throw (tell t)) (tryCatch step' fun t => throw (tell t)) := by
  intro p hp
  obtain ⟨hsame, hwithin, hgain⟩ := h p hp
  refine ⟨?_, ?_, fun a ha => ?_⟩
  · rw [tryCatch_eq, tryCatch_eq, hsame]
  · rw [tryCatch_eq]
    exact hwithin
  · rw [tryCatch_eq] at ha ⊢
    refine hgain a ?_
    cases hout : (step p).1 with
    | error t => simp [hout, Except.mapError] at ha
    | ok b => simpa [hout, Except.mapError] using ha

section Loops
variable {inner inner' : Nested}

def itemsRound (item : Step α) (more : Parse Bool) (again : Step (List α)) : Step (List α) := do
  let a ← item
  if ← more then
    skip
    return a :: (← again)
  else return [a]

def argumentsRound (inner : Nested) (last : Bool) (again : Step Unit) : Step Unit := do
  let _ ← inner.whole
  if last || !(← sees ",") then expect ">"
  else
    skip
    again

def entriesRound (inner : Nested) (keyed : Bool) (again : Step Unit) : Step Unit := do
  if !keyed && (← sees "...") then
    skip
    expect "\x7d"
  else
    if keyed then requiredKey else Grammar.optionalKey
    let _ ← inner.whole
    if ← sees "," then
      skip
      if ← sees "\x7d" then skip else again
    else expect "\x7d"

def parametersRound (inner : Nested) (again : Step Unit) : Step Unit := do
  if ← sees ")" then skip
  else
    let _ ← inner.whole
    accept "&"
    accept "..."
    accept "="
    if (← next?).any (·.kind == .variable) then skip
    if !(← sees ")") then expect ","
    again

def bracketsRound (t : DocType) (again : Step DocType) : Step DocType := do
  if (← sees "[") && (← seesAt 1 "]") then
    skip
    skip
    again
  else return t

theorem argumentsRound_last (inner : Nested) (again again' : Step Unit) :
    argumentsRound inner true again = argumentsRound inner true again' := by
  simp only [argumentsRound, Bool.true_or, if_true]

theorem alike_itemsRound {more : Parse Bool} {again again' : Step (List α)}
    (h : Alike (n + 1) 1 step step') (hm : Yields (fun _ => True) more fun _ => True)
    (ha : Alike n 0 again again') :
    Alike (n + 1) 1 (itemsRound step more again) (itemsRound step' more again') := by
  refine h.after fun a => (alike_yields hm).bind fun _ => alike_ite ?_ (alike_pure _)
  exact alike_skip.weaken.bind fun _ => ha.bind fun _ => alike_pure _

theorem alike_argumentsRound {again again' : Step Unit}
    (hw : Alike (n + 1) 1 inner.whole inner'.whole) (last : Bool) (ha : Alike n 0 again again') :
    Alike (n + 1) 1 (argumentsRound inner last again) (argumentsRound inner' last again') := by
  refine hw.after fun _ => (alike_sees _).bind fun _ => alike_ite (alike_expect _).weaken ?_
  exact alike_skip.weaken.bind fun _ => ha

theorem alike_requiredKey : Alike n 0 requiredKey requiredKey := by
  refine alike_next?.bind fun o => ?_
  cases o with
  | none => exact alike_fail
  | some l =>
    refine alike_ite (alike_skip.weaken.bind fun _ => ?_) alike_fail
    exact (alike_accept _).bind fun _ => (alike_expect _).weaken

theorem alike_entriesRound {again again' : Step Unit}
    (hw : Alike (n + 1) 1 inner.whole inner'.whole) (keyed : Bool) (ha : Alike n 0 again again') :
    Alike (n + 1) 1 (entriesRound inner keyed again) (entriesRound inner' keyed again') := by
  have hrest : Alike (n + 1) 1 (do
      let _ ← inner.whole
      if ← sees "," then
        skip
        if ← sees "\x7d" then skip else again
      else expect "\x7d") (do
      let _ ← inner'.whole
      if ← sees "," then
        skip
        if ← sees "\x7d" then skip else again'
      else expect "\x7d") := by
    refine hw.after fun _ => (alike_sees _).bind fun _ => alike_ite ?_ (alike_expect _).weaken
    exact alike_skip.weaken.bind fun _ => (alike_sees _).bind fun _ =>
      alike_ite alike_skip.weaken ha
  refine (alike_sees _).bind fun _ => alike_ite ?_ (alike_ite ?_ ?_)
  · exact alike_skip.after fun _ => (alike_expect _).weaken
  · exact alike_requiredKey.bind fun _ => hrest
  · exact (alike_yields Grammar.yields_optionalKey).bind fun _ => hrest

theorem alike_parametersRound {again again' : Step Unit}
    (hw : Alike (n + 1) 1 inner.whole inner'.whole) (ha : Alike n 0 again again') :
    Alike (n + 1) 1 (parametersRound inner again) (parametersRound inner' again') := by
  have hrest : Alike n 0 (do
      if !(← sees ")") then expect ","
      again) (do
      if !(← sees ")") then expect ","
      again') :=
    (alike_sees _).bind fun _ => alike_ite ((alike_expect _).weaken.bind fun _ => ha) ha
  refine (alike_sees _).bind fun _ => alike_ite alike_skip ?_
  refine hw.after fun _ => (alike_accept _).bind fun _ => (alike_accept _).bind fun _ =>
    (alike_accept _).bind fun _ => alike_next?.bind fun _ => alike_ite ?_ hrest
  exact alike_skip.weaken.bind fun _ => hrest

theorem alike_bracketsRound {again again' : Step DocType} (t : DocType)
    (ha : Alike n 0 again again') :
    Alike (n + 1) 0 (bracketsRound t again) (bracketsRound t again') := by
  refine (alike_sees _).bind fun _ => (alike_yields (yields_seesAt _ _)).bind fun _ =>
    alike_ite (Alike.weaken ?_) (alike_pure t)
  exact alike_skip.after fun _ => alike_skip.weaken.bind fun _ => ha

/-- Bounded loops are alike if their rounds are. -/
theorem alike_rounds {loop loop' : Nat → Step α} (hzero : Alike n d (loop 0) (loop' 0))
    (hsucc : ∀ bound m, m < n → Alike m 0 (loop bound) (loop' bound) →
      Alike (m + 1) d (loop (bound + 1)) (loop' (bound + 1))) (bound : Nat) :
    Alike n d (loop bound) (loop' bound) := by
  induction bound with
  | zero => exact hzero
  | succ bound ih =>
    cases n with
    | zero => exact alike_zero
    | succ n => exact hsucc bound n (Nat.lt_succ_self n) (ih.mono (Nat.le_succ n) (Nat.zero_le d))

theorem alike_itemsTo {more : Parse Bool} (h : Alike n 1 step step')
    (hm : Yields (fun _ => True) more fun _ => True) (bound : Nat) :
    Alike n 1 (itemsTo step more bound) (itemsTo step' more bound) :=
  alike_rounds alike_fail (fun _ _ hlt => alike_itemsRound (h.mono hlt (Nat.le_refl 1)) hm) bound

theorem alike_items {more : Parse Bool} (h : Alike n 1 step step')
    (hm : Yields (fun _ => True) more fun _ => True) :
    Alike n 1 (items step more) (items step' more) :=
  alike_ahead.bind fun _ => alike_itemsTo h hm _

theorem alike_argumentsTo (hw : Alike n 1 inner.whole inner'.whole) (bound : Nat) :
    Alike n 1 (argumentsTo inner bound) (argumentsTo inner' bound) :=
  alike_rounds alike_fail
    (fun _ _ hlt => alike_argumentsRound (hw.mono hlt (Nat.le_refl 1)) _) bound

theorem alike_entriesTo (hw : Alike n 1 inner.whole inner'.whole) (keyed : Bool) (bound : Nat) :
    Alike n 1 (entriesTo inner keyed bound) (entriesTo inner' keyed bound) :=
  alike_rounds alike_fail
    (fun _ _ hlt => alike_entriesRound (hw.mono hlt (Nat.le_refl 1)) keyed) bound

theorem alike_parametersTo (hw : Alike n 1 inner.whole inner'.whole) (bound : Nat) :
    Alike n 1 (parametersTo inner bound) (parametersTo inner' bound) :=
  alike_rounds alike_fail
    (fun _ _ hlt => alike_parametersRound (hw.mono hlt (Nat.le_refl 1))) bound

theorem alike_arguments (hw : Alike n 1 inner.whole inner'.whole) (most : Option Nat) :
    Alike (n + 1) 1 (arguments inner most) (arguments inner' most) :=
  (alike_expect _).after fun _ => alike_ahead.bind fun _ => (alike_argumentsTo hw _).weaken

theorem alike_shape (hw : Alike n 1 inner.whole inner'.whole) (keyed : Bool) :
    Alike (n + 1) 1 (shape inner keyed) (shape inner' keyed) := by
  refine (alike_expect _).after fun _ => (alike_sees _).bind fun _ =>
    alike_ite alike_skip.weaken ?_
  exact alike_ahead.bind fun _ => (alike_entriesTo hw keyed _).weaken

/-- Pairs of brackets are read without failing. -/
theorem exists_bracketsTo (t : DocType) (bound : Nat) (s : Reader) :
    ∃ r, Grammar.bracketsTo t bound s = .ok r := by
  induction bound generalizing t s with
  | zero => exact ⟨_, rfl⟩
  | succ bound ih =>
    rw [Grammar.bracketsTo_succ]
    split
    · next hpair =>
      obtain ⟨rest, words⟩ := s
      have hlen : 1 < rest.length := lt_length_of_shows (Bool.and_eq_true_iff.mp hpair).2
      match rest, hlen with
      | _ :: _ :: rest, _ => exact ih (.atom "array") ⟨rest, words⟩
    · exact ⟨_, rfl⟩

theorem lift_bracketsTo_succ (t : DocType) (bound : Nat) :
    (liftM (Grammar.bracketsTo t (bound + 1)) : Step DocType) =
      bracketsRound t (liftM (Grammar.bracketsTo (.atom "array") bound)) := by
  funext p
  have hround : ∀ again, bracketsRound t again p =
      (if p.reader.shows 0 "[" && p.reader.shows 1 "]" then (do
        skip
        skip
        again : Step DocType) else pure t) p := fun _ => rfl
  rw [hround, lift_eq, Grammar.bracketsTo_succ]
  cases hpair : p.reader.shows 0 "[" && p.reader.shows 1 "]" with
  | false => rfl
  | true =>
    obtain ⟨lattice, subject, ⟨rest, words⟩⟩ := p
    have hlen : 1 < rest.length := lt_length_of_shows (Bool.and_eq_true_iff.mp hpair).2
    match rest, hlen with
    | l :: l' :: rest, _ =>
      obtain ⟨r, hr⟩ := exists_bracketsTo (.atom "array") bound ⟨rest, words⟩
      have hparse : (do
          skip
          skip
          Grammar.bracketsTo (.atom "array") bound : Parse DocType) ⟨l :: l' :: rest, words⟩ =
          .ok r := hr
      have hstep : (do
          skip
          skip
          liftM (Grammar.bracketsTo (.atom "array") bound) : Step DocType)
          ⟨lattice, subject, ⟨l :: l' :: rest, words⟩⟩ =
          (liftM (Grammar.bracketsTo (.atom "array") bound) : Step DocType)
            ⟨lattice, subject, ⟨rest, words⟩⟩ := rfl
      rw [if_pos rfl, if_pos rfl, hparse, hstep, lift_eq, hr]

theorem alike_bracketsTo (t : DocType) (bound : Nat) :
    Alike n 0 (liftM (Grammar.bracketsTo t bound)) (liftM (Grammar.bracketsTo t bound)) := by
  induction bound generalizing n t with
  | zero => exact alike_yields (yields_pure (P := fun _ => True) trivial)
  | succ bound ih =>
    rw [lift_bracketsTo_succ]
    exact (alike_bracketsRound t (ih (.atom "array"))).mono (Nat.le_succ n) (Nat.le_refl 0)

end Loops

structure NestedAlike (n : Nat) (inner inner' : Nested) : Prop where
  whole : Alike n 1 inner.whole inner'.whole
  bracketed : Alike n 1 inner.bracketed inner'.bracketed
  single : Alike n 1 inner.single inner'.single
  basic : Alike n 1 inner.basic inner'.basic

variable {inner inner' : Nested}

theorem NestedAlike.mono (h : NestedAlike n inner inner') (hm : m ≤ n) :
    NestedAlike m inner inner' :=
  ⟨h.whole.mono hm (Nat.le_refl 1), h.bracketed.mono hm (Nat.le_refl 1),
    h.single.mono hm (Nat.le_refl 1), h.basic.mono hm (Nat.le_refl 1)⟩

theorem alike_mask (hb : Alike n 1 inner.basic inner'.basic) :
    Alike n 1 (mask inner) (mask inner') := by
  cases n with
  | zero => exact alike_zero
  | succ n =>
    exact (alike_caught hb).after fun t => (alike_query _).bind fun _ =>
      alike_ite (alike_pure ()) (alike_throw _)

variable (hn : NestedAlike n inner inner')
include hn

theorem alike_int : Alike (n + 1) 1 (int inner) (int inner') := by
  have hmask := alike_mask hn.basic
  have hbound : ∀ keyword, Alike n 0 (liftM (Grammar.rangeBound keyword))
    (liftM (Grammar.rangeBound keyword)) := fun _ => alike_yields (Grammar.yields_rangeBound _)
  have hend : Alike n 0 (pure (DocType.atom "int")) (pure (.atom "int")) := alike_pure _
  have hclose : Alike n 0 (do
      expect ">"
      pure (DocType.atom "int")) (do
      expect ">"
      pure (.atom "int")) := (alike_expect _).weaken.bind fun _ => hend
  refine alike_word.after fun w => alike_ite ?_ (alike_ite ?_ (alike_ite ?_ hend))
  · refine (alike_sees _).bind fun _ => alike_ite ?_ hend
    exact alike_skip.weaken.bind fun _ => (hbound _).bind fun _ =>
      (alike_expect _).weaken.bind fun _ => (hbound _).bind fun _ => hclose
  · exact (alike_expect _).weaken.bind fun _ =>
      (alike_items hmask (yields_sees _)).weaken.bind fun _ => hclose
  · exact (alike_expect _).weaken.bind fun _ => hmask.weaken.bind fun _ => hclose

theorem alike_string : Alike (n + 1) 1 (string inner) (string inner') := by
  have hend : Alike n 0 (pure (DocType.atom "string")) (pure (.atom "string")) := alike_pure _
  refine alike_word.after fun w => alike_ite ?_ hend
  refine (alike_sees _).bind fun _ => alike_ite ?_ hend
  refine alike_skip.weaken.bind fun _ => hn.whole.weaken.bind fun t =>
    (alike_query _).bind fun _ => alike_ite ?_ alike_fail_bind
  exact (alike_expect _).weaken.bind fun _ => hend

theorem alike_array : Alike (n + 1) 1 (array inner) (array inner') := by
  have hend : Alike n 0 (pure (DocType.atom "array")) (pure (.atom "array")) := alike_pure _
  have hclose : Alike n 0 (do
      expect ">"
      pure (DocType.atom "array")) (do
      expect ">"
      pure (.atom "array")) := (alike_expect _).weaken.bind fun _ => hend
  have hshape : Alike n 0 (shape inner false) (shape inner' false) :=
    (alike_shape hn.whole false).mono (Nat.le_succ n) (Nat.zero_le 1)
  refine alike_word.after fun w => (alike_sees _).bind fun _ => alike_ite ?_ ?_
  · refine alike_skip.weaken.bind fun _ => hn.whole.weaken.bind fun t =>
      (alike_sees _).bind fun _ => alike_ite (alike_ite alike_fail_bind ?_) hclose
    refine (alike_query _).bind fun _ => alike_ite ?_ alike_fail_bind
    exact alike_skip.weaken.bind fun _ => hn.whole.weaken.bind fun _ => hclose
  · refine (alike_sees _).bind fun _ => alike_ite ?_ hend
    exact alike_ite alike_fail_bind (hshape.bind fun _ => hend)

theorem alike_callable : Alike (n + 1) 1 (callable inner) (callable inner') := by
  refine alike_take.after fun l => (alike_sees _).bind fun _ => alike_ite ?_ (alike_pure _)
  refine alike_skip.weaken.bind fun _ => alike_ahead.bind fun _ =>
    (alike_parametersTo hn.whole _).weaken.bind fun _ => (alike_expect _).weaken.bind fun _ =>
      (alike_sees _).bind fun _ => alike_ite ?_ ?_
  · exact hn.whole.weaken.bind fun _ => alike_pure _
  · exact hn.single.weaken.bind fun _ => alike_pure _

theorem alike_keyOrValue : Alike (n + 1) 1 (keyOrValue inner) (keyOrValue inner') := by
  have hend : Alike n 0 (do return (← against).unknown) (do return (← against).unknown) :=
    alike_against.bind fun _ => alike_pure _
  refine alike_skip.after fun _ => (alike_expect _).weaken.bind fun _ =>
    hn.whole.weaken.bind fun t => (alike_query _).bind fun _ => alike_ite ?_ alike_fail_bind
  exact (alike_expect _).weaken.bind fun _ => hend

theorem alike_className : Alike (n + 1) 1 (className inner) (className inner') := by
  have hend : ∀ name, Alike n 0 (do return Grammar.classType (← against).scope name)
    (do return Grammar.classType (← against).scope name) :=
    fun _ => alike_against.bind fun _ => alike_pure _
  have harguments : Alike n 0 (arguments inner none) (arguments inner' none) :=
    (alike_arguments hn.whole none).mono (Nat.le_succ n) (Nat.zero_le 1)
  refine alike_take.after fun l => alike_ite alike_fail_bind ?_
  exact (alike_sees _).bind fun _ => alike_ite (harguments.bind fun _ => hend _) (hend _)

omit hn in
theorem alike_static (c : Context) :
    Alike n 1 (liftM (Grammar.static c)) (liftM (Grammar.static c)) := by
  have hof : ∀ o, Yields (fun _ => True) (Grammar.staticOf c o) fun _ => True := by
    intro o
    cases o with
    | none =>
      obtain ⟨t, ht⟩ := Grammar.exists_scopeStatic_eq c
      change Yields _ (Grammar.scopeStatic c) _
      rw [ht]
      exact yields_pure trivial
    | some bound =>
      exact yields_skip.next fun _ => yields_skip.next fun _ => yields_skip.next fun _ =>
        yields_pure trivial
  refine alike_lift fun s a t h => ?_
  rw [Grammar.static_eq] at h
  exact gain_bind (fun _ _ _ => gain_skip) (fun _ s => hof (Grammar.boundAhead s) s) h

/-- A basic type up to its suffix. -/
theorem alike_stem (k : Grammar.Construct) : Alike (n + 1) 1 (stem inner k) (stem inner' k) := by
  have hshape : Alike n 0 (shape inner true) (shape inner' true) :=
    (alike_shape hn.whole true).mono (Nat.le_succ n) (Nat.zero_le 1)
  have harguments : Alike n 0 (arguments inner (some 2)) (arguments inner' (some 2)) :=
    (alike_arguments hn.whole _).mono (Nat.le_succ n) (Nat.zero_le 1)
  cases k with
  | bool | float | never => exact alike_word.after fun _ => alike_pure _
  | int => exact alike_int hn
  | string => exact alike_string hn
  | array => exact alike_array hn
  | object =>
    refine alike_skip.after fun _ => (alike_sees _).bind fun _ => alike_ite ?_ (alike_pure _)
    exact hshape.bind fun _ => alike_pure _
  | plain => exact alike_take.after fun _ => alike_pure _
  | self | parent => exact alike_skip.after fun _ => alike_against.bind fun _ => alike_pure _
  | static => exact alike_against.bind fun c => alike_static c
  | callable => exact alike_callable hn
  | iterable =>
    refine alike_skip.after fun _ => (alike_sees _).bind fun _ => alike_ite ?_ (alike_pure _)
    exact harguments.bind fun _ => alike_pure _
  | keyOrValue => exact alike_keyOrValue hn
  | className => exact alike_className hn
end PhpDoc.Parser
