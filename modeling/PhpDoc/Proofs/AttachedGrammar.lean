import PhpDoc.Proofs.Attaching
import PhpDoc.Proofs.DetachedGrammar
/-!
Types before other lexemes. All constructs of the grammar read a type alike whether it stands alone
or before lexemes with which no type goes on.
-/
namespace PhpDoc

namespace Grammar
open Parse
open Lexeme (relocated)
variable {c : Context} {inner inner' : Nested} {place : Nat → Nat} {ahead : List Lexeme}
  {P : List Lexeme → Prop} {k : Construct}

structure NestedAttaches (place : Nat → Nat) (ahead : List Lexeme) (inner inner' : Nested) :
    Prop where
  whole : Attaches place ahead (Settled ahead) inner.whole inner'.whole
  bracketed : Attaches place ahead (fun ms => Settled ahead ms ∧ ms ≠ []) inner.bracketed
    inner'.bracketed
  single : Attaches place ahead (Settled ahead) inner.single inner'.single
  basic : Attaches place ahead (Settled ahead) inner.basic inner'.basic
  eats : Eats 1 inner.whole

theorem one_le_length_of_head {ls : List Lexeme} {f : Lexeme → Bool} (h : ls.head?.any f = true) :
    1 ≤ ls.length := by
  cases ls with
  | nil => simp at h
  | cons l ls => simp

section
variable (hc : Stops ahead)
include hc

theorem attaches_argumentsTo_succ {b b' : Nat}
    (hw : Attaches place ahead (Settled ahead) inner.whole inner'.whole)
    (h : Attaches place ahead (Settled ahead) (argumentsTo inner b) (argumentsTo inner' b')) :
    Attaches place ahead (Settled ahead) (argumentsTo inner (b + 1))
      (argumentsTo inner' (b' + 1)) := by
  rw [argumentsTo_succ, argumentsTo_succ]
  refine hw.bind (fun _ => ?_) fun _ => spares_sees (by decide) (spares_expect (by decide))
  exact attaches_sees hc (by decide) (attaches_skip.next fun _ => h) attaches_expect

theorem attaches_arguments (hw : Attaches place ahead (Settled ahead) inner.whole inner'.whole)
    (most : Option Nat) :
    Attaches place ahead (Settled ahead) (arguments inner most) (arguments inner' most) := by
  have hrounds : ∀ b b', b ≤ b' →
      Attaches place ahead (Settled ahead) (argumentsTo inner b)
        (argumentsTo inner' b') := fun _ _ =>
    attaches_rounds (f := argumentsTo inner) (u := argumentsTo inner') rfl
      fun _ _ => attaches_argumentsTo_succ hc hw
  refine attaches_expect.next fun _ => attaches_get_bind
    (f := fun m => argumentsTo inner (most.getD (m + 1)))
    (u := fun m => argumentsTo inner' (most.getD (m + 1))) fun b b' hb => hrounds _ _ ?_
  cases most with
  | none => exact Nat.succ_le_succ hb
  | some bound => exact Nat.le_refl bound

theorem attaches_requiredKey : Attaches place ahead P requiredKey requiredKey := by
  refine attaches_next?_bind (fun l => Attaches.ite ?_ attaches_fail) needs_fail fun _ => rfl
  exact attaches_skip.next fun _ => (attaches_accept hc (by decide)).next fun _ => attaches_expect

omit hc in
theorem attaches_rangeBound (keyword : String) :
    Attaches place ahead P (rangeBound keyword) (rangeBound keyword) :=
  attaches_next?_bind (fun _ => attaches_skip.ite attaches_fail) needs_fail fun _ => rfl

omit hc in
theorem attaches_mask (hb : Attaches place ahead (Settled ahead) inner.basic inner'.basic) :
    Attaches place ahead (Settled ahead) (mask c inner) (mask c inner') := by
  intro ls ws x ms ws' h hms words
  obtain ⟨a, ha, hf⟩ := mask_eq_ok.mp h
  obtain ⟨words', hr⟩ := hb ls ws a ms ws' ha hms words
  exact ⟨words', mask_eq_ok.mpr ⟨a, hr, hf⟩⟩

omit hc in
theorem optionalKey_bind (q : Parse Unit) : (optionalKey >>= fun _ => q) = fun s =>
    (if (s.rest[0]?).any isShapeKey && s.shows 1 ":" then skip >>= fun _ => skip >>= fun _ => q
    else fun s => (if (s.rest[0]?).any isShapeKey && (s.shows 1 "?" && s.shows 2 ":") then
      skip >>= fun _ => skip >>= fun _ => skip >>= fun _ => q else q) s : Parse Unit) s := by
  funext s
  have hbind : (optionalKey >>= fun _ => q) s = (optionalKey s >>= fun r => q r.2) := rfl
  rw [hbind, optionalKey_eq]
  split
  · simp only [*, ← bind_assoc]
    rfl
  · simp only [*]
    split
    · simp only [← bind_assoc]
      rfl
    · rfl

/-- A step after a key that may be left out, unless nothing at all is ahead. -/
theorem attaches_optionalKey_bind {q q' : Parse Unit} (hq : Attaches place ahead P q q')
    (hn : Needs q) :
    Attaches place ahead P (optionalKey >>= fun _ => q) (optionalKey >>= fun _ => q') := by
  have hkey : Blind place ahead 1 fun s => (s.rest[0]?).any isShapeKey :=
    blind_at 0 (f := fun o => o.any isShapeKey) fun _ => rfl
  have hlen : ∀ ls ws, ((⟨ls, ws⟩ : Reader).rest[0]?).any isShapeKey = true → 1 ≤ ls.length :=
    fun ls ws h => one_le_length_of_head (List.head?_eq_getElem? ▸ h)
  have hmarks : Blind place ahead 1 fun s => s.shows 1 "?" && s.shows 2 ":" :=
    (hc.blind_shows 1 (by decide)).and (hc.blind_shows 2 (by decide)) fun _ _ => lt_length_of_shows
  rw [optionalKey_bind, optionalKey_bind]
  refine (hkey.and (hc.blind_shows 1 (by decide)) hlen).attaches_ite_needs
    (attaches_skip.next fun _ => attaches_skip.next fun _ => hq) ?_ (fun _ => rfl) hn
  exact (hkey.and hmarks hlen).attaches_ite_needs
    (attaches_skip.next fun _ => attaches_skip.next fun _ => attaches_skip.next fun _ => hq) hq
    (fun _ => rfl) hn

theorem attaches_entriesTo_succ {keyed : Bool} {b b' : Nat} (he : Eats 1 inner.whole)
    (hw : Attaches place ahead (Settled ahead) inner.whole inner'.whole)
    (h : Attaches place ahead (Settled ahead) (entriesTo inner keyed b)
      (entriesTo inner' keyed b')) :
    Attaches place ahead (Settled ahead) (entriesTo inner keyed (b + 1))
      (entriesTo inner' keyed (b' + 1)) := by
  have hrest : Attaches place ahead (Settled ahead) (do
      let _ ← inner.whole
      if ← sees "," then
        skip
        if ← sees "\x7d" then skip else entriesTo inner keyed b
      else expect "\x7d") (do
      let _ ← inner'.whole
      if ← sees "," then
        skip
        if ← sees "\x7d" then skip else entriesTo inner' keyed b'
      else expect "\x7d") := by
    refine hw.bind (fun _ => ?_) fun _ => spares_sees (by decide) (spares_expect (by decide))
    refine attaches_sees hc (by decide) (attaches_skip.next fun _ => ?_) attaches_expect
    exact attaches_sees hc (by decide) attaches_skip h
  cases keyed with
  | true => exact (attaches_requiredKey hc).next fun _ => hrest
  | false =>
    have hentry := attaches_optionalKey_bind hc hrest he.needs.bind
    exact attaches_sees_bind (fun _ => (attaches_skip.next fun _ => attaches_expect).ite hentry)
      (he.needs.bind (f := fun _ => _))

theorem attaches_shape (he : Eats 1 inner.whole)
    (hw : Attaches place ahead (Settled ahead) inner.whole inner'.whole) (keyed : Bool) :
    Attaches place ahead (Settled ahead) (shape inner keyed) (shape inner' keyed) := by
  refine attaches_expect.next fun _ => attaches_sees hc (by decide) attaches_skip ?_
  exact attaches_get_rounds (f := entriesTo inner keyed) (u := entriesTo inner' keyed) rfl
    fun _ _ => attaches_entriesTo_succ hc he hw

omit hc in
theorem comma_ne_ok {q : Parse Unit} {l : Lexeme} {ls : List Lexeme} {ws : List Nat}
    {r : Unit × Reader} (hclose : l.text ≠ ")") (hcomma : l.text ≠ ",") : (do
      if !(← sees ")") then expect ","
      q) ⟨l :: ls, ws⟩ ≠ .ok r := by
  intro h
  obtain ⟨b, s, hs, h⟩ := bind_eq_ok.mp h
  obtain ⟨rfl, rfl⟩ : (l.text == ")") = b ∧ ⟨l :: ls, ws⟩ = s := by simpa [sees, seesAt] using hs
  rw [beq_false_of_ne hclose] at h
  obtain ⟨_, _, h₁, -⟩ := bind_eq_ok.mp h
  exact expect_ne_ok hcomma h₁

omit hc in
theorem accept_of_ne {x : String} {o : Lexeme} {ls : List Lexeme} {ws : List Nat}
    (ho : o.text ≠ x) : accept x ⟨o :: ls, ws⟩ = .ok ((), ⟨o :: ls, ws⟩) := by
  have hlook : accept x ⟨o :: ls, ws⟩ =
      (if (o.text == x) = true then skip else pure () : Parse Unit) ⟨o :: ls, ws⟩ := rfl
  rw [hlook, beq_false_of_ne ho]
  rfl

def parameterEnd (q : Parse Unit) : Parse Unit := do
  if (← next?).any (·.kind == .variable) then skip
  if !(← sees ")") then expect ","
  q

omit hc in
theorem needs_parameterEnd {q : Parse Unit} : Needs (parameterEnd q) := by
  intro ws r h
  exact (needs_expect (x := ",")).bind (f := fun _ => q) ws r h

omit hc in
/-- After a variable, or none, neither a parenthesis nor a name can stand. -/
theorem parameterEnd_ne_ok {q : Parse Unit} {o l : Lexeme} {ws : List Nat} {r : Unit × Reader}
    (ho : o.text = "(") (hl : IsAbsolute l.text) : parameterEnd q ⟨[o, l], ws⟩ ≠ .ok r := by
  intro h
  have hname : ∀ x : String, ¬IsAbsolute x → l.text ≠ x := fun x hx he => hx (he ▸ hl)
  obtain ⟨head, s, hs, h⟩ := bind_eq_ok.mp h
  obtain ⟨rfl, rfl⟩ : some o = head ∧ ⟨[o, l], ws⟩ = s := by simpa [next?] using hs
  by_cases hv : (o.kind == .variable) = true
  · rw [Option.any_some, hv] at h
    exact (comma_ne_ok (hname _ (by decide)) (hname _ (by decide)) h).elim
  · rw [Option.any_some, if_neg hv] at h
    exact (comma_ne_ok (by rw [ho]; decide) (by rw [ho]; decide) h).elim

omit hc in
theorem spares_parameter {q : Parse Unit} : Spares (do
    accept "&"
    accept "..."
    accept "="
    parameterEnd q) := by
  rintro ⟨rest, ws⟩ a t (⟨o, l, rfl, ho, hl⟩ | ⟨o, rfl, ho⟩) h
  · have hsign : ∀ x, x ≠ "(" → accept x ⟨[o, l], ws⟩ = .ok ((), ⟨[o, l], ws⟩) := fun x hx =>
      accept_of_ne (ho ▸ hx.symm)
    rw [bind_eq (hsign _ (by decide)), bind_eq (hsign _ (by decide)),
      bind_eq (hsign _ (by decide))] at h
    exact (parameterEnd_ne_ok ho hl h).elim
  · obtain ⟨kind, start, text, spaced⟩ := o
    obtain rfl : text = "&" := ho
    have hneeds : Needs (do
        accept "..."
        accept "="
        parameterEnd q) := (needs_parameterEnd (q := q)).accept_bind (x := "=") |>.accept_bind
    exact (hneeds ws (a, t) h).elim

omit hc in
theorem attaches_parameter {q q' : Parse Unit} (hq : Attaches place ahead P q q') :
    Attaches place ahead P (do
      accept "&"
      accept "..."
      accept "="
      parameterEnd q) (do
      accept "&"
      accept "..."
      accept "="
      parameterEnd q') := by
  have hclose : Attaches place ahead P (do
      if !(← sees ")") then expect ","
      q) (do
      if !(← sees ")") then expect ","
      q') := by
    refine attaches_sees_bind (fun _ => (attaches_expect.next fun _ => hq).ite hq) fun ws r he => ?_
    obtain ⟨_, _, h₁, -⟩ := bind_eq_ok.mp he
    exact needs_expect (x := ",") ws _ h₁
  have hend : Attaches place ahead P (parameterEnd q) (parameterEnd q') :=
    attaches_next?_bind (fun l => Attaches.ite (attaches_skip.next fun _ => hclose) hclose)
      (needs_parameterEnd (q := q)) fun _ => rfl
  have hn : Needs (parameterEnd q) := needs_parameterEnd
  have hn' : Needs (accept "=" >>= fun _ => parameterEnd q) := hn.accept_bind
  have hn'' : Needs (accept "..." >>= fun _ => accept "=" >>= fun _ => parameterEnd q) :=
    hn'.accept_bind
  exact attaches_accept_bind (attaches_accept_bind (attaches_accept_bind hend hn) hn') hn''

omit hc in
theorem attaches_parametersTo_succ {b b' : Nat} (he : Eats 1 inner.whole)
    (hw : Attaches place ahead (Settled ahead) inner.whole inner'.whole)
    (h : Attaches place ahead (Settled ahead) (parametersTo inner b) (parametersTo inner' b')) :
    Attaches place ahead (Settled ahead) (parametersTo inner (b + 1))
      (parametersTo inner' (b' + 1)) :=
  attaches_sees_bind (fun _ => attaches_skip.ite (hw.bind (fun _ => attaches_parameter h)
    fun _ => spares_parameter)) he.needs.bind

theorem attaches_constantName : Attaches place ahead P constantName constantName := by
  have hrest : ∀ b : Bool, Attaches place ahead P (do
      if ← sees "*" then skip
      else if !b then fail) (do
      if ← sees "*" then skip
      else if !b then fail) := fun b =>
    attaches_sees hc (by decide) attaches_skip (attaches_fail.ite (attaches_pure ()))
  refine attaches_next?_bind (fun l => ?_) (fun ws r => fail_ne_ok (s := ⟨[], ws⟩)) fun _ => rfl
  exact (attaches_skip.next fun _ => hrest _).ite (hrest _)

omit hc in
theorem joinsAhead_of_unfinished {s : Reader} (hs : Unfinished s.rest) : joinsAhead s = false := by
  obtain ⟨o, l, hr, ho, -⟩ | ⟨o, hr, -⟩ := hs
  · simp [joinsAhead, Reader.shows, hr, ho]
  · simp [joinsAhead, hr]

/-- A sign joins no other type to those that are settled. -/
theorem joinsAhead_append {ls : List Lexeme} (hs : Settled ahead ls) (ws ws' : List Nat) :
    joinsAhead ⟨ls.map (relocated place) ++ ahead, ws'⟩ = joinsAhead ⟨ls, ws⟩ := by
  match ls with
  | [] => exact hc.joins
  | [o] =>
    by_cases hne : ahead = []
    · subst hne
      rfl
    · have ho : o.text ≠ "&" := fun ho => hs hne (.inr ⟨o, rfl, ho⟩)
      simp [joinsAhead, Reader.shows, relocated, ho]
  | o :: l :: ls => rfl

omit hc in
theorem bracketsTo_succ (t : DocType) (b : Nat) (s : Reader) : bracketsTo t (b + 1) s =
    (if (s.shows 0 "[" && s.shows 1 "]") = true then
      skip >>= fun _ => skip >>= fun _ => bracketsTo (.atom "array") b else pure t) s :=
  rfl

omit hc in
theorem bracketsTo_of_shows {t : DocType} {b : Nat} {s : Reader}
    (hs : (s.shows 0 "[" && s.shows 1 "]") = false) : bracketsTo t b s = .ok (t, s) := by
  cases b with
  | zero => rfl
  | succ b =>
    rw [bracketsTo_succ, hs]
    rfl

theorem reads_bracketsTo {t u : DocType} {b b' : Nat} {ls ms : List Lexeme} {ws ws' : List Nat}
    (hb : ls.length ≤ b) (hb' : ls.length ≤ b')
    (h : bracketsTo t b ⟨ls, ws⟩ = .ok (u, ⟨ms, ws'⟩)) :
    Reads (bracketsTo t b') (ls.map (relocated place) ++ ahead) u
      (ms.map (relocated place) ++ ahead) := by
  have hpair : Blind place ahead 0 fun s => s.shows 0 "[" && s.shows 1 "]" :=
    (hc.blind_shows 0 (by decide)).and (hc.blind_shows 1 (by decide)) fun _ _ =>
      lt_length_of_shows
  induction b generalizing t b' ls ws with
  | zero =>
    obtain rfl : ls = [] := List.length_eq_zero_iff.mp (Nat.le_zero.mp hb)
    obtain ⟨rfl, hs⟩ := pure_eq_ok.mp h
    obtain ⟨rfl, -⟩ := Reader.mk.inj hs
    exact fun words => ⟨words, bracketsTo_of_shows (hpair [] ws' words (Nat.zero_le _))⟩
  | succ b ih =>
    intro words
    cases hd : (Reader.shows 0 "[" ⟨ls, ws⟩ && Reader.shows 1 "]" ⟨ls, ws⟩) with
    | false =>
      have hsame := (hpair ls ws words (Nat.zero_le _)).trans hd
      rw [bracketsTo_of_shows hd] at h
      cases h
      exact ⟨words, bracketsTo_of_shows hsame⟩
    | true =>
      have hlen : 1 < ls.length := lt_length_of_shows (Bool.and_eq_true_iff.mp hd).2
      obtain ⟨k, rfl⟩ : ∃ k, b' = k + 1 := ⟨b' - 1, by omega⟩
      have hlook := (hpair ls ws words (Nat.zero_le _)).trans hd
      rw [bracketsTo_succ, hd, if_pos rfl] at h
      simp only at hlook
      rw [bracketsTo_succ, hlook, if_pos rfl]
      match ls, hlen with
      | o :: e :: rest, _ =>
        rw [List.length_cons, List.length_cons] at hb hb'
        have hread : Reads (bracketsTo (.atom "array") k) (rest.map (relocated place) ++ ahead) u
            (ms.map (relocated place) ++ ahead) := ih (by omega) (by omega) h
        exact (reads_skip (l := relocated place o)).bind
          ((reads_skip (l := relocated place e)).bind hread) words

section
variable (hn : NestedAttaches place ahead inner inner')
include hn

theorem attaches_int : Attaches place ahead (Settled ahead) (int c inner) (int c inner') := by
  have hend : Attaches place ahead (Settled ahead) (pure (.atom "int") : Parse DocType)
      (pure (.atom "int")) :=
    attaches_pure _
  have hclose : Attaches place ahead (Settled ahead) (do
      expect ">"
      return DocType.atom "int") (do
      expect ">"
      return DocType.atom "int") := attaches_expect.next fun _ => hend
  refine attaches_word.next fun w => Attaches.ite ?_ (Attaches.ite ?_ (Attaches.ite ?_ hend))
  · refine attaches_sees hc (by decide) (attaches_skip.next fun _ => ?_) hend
    exact (attaches_rangeBound _).next fun _ => attaches_expect.next fun _ =>
      (attaches_rangeBound _).next fun _ => hclose
  · refine attaches_expect.next fun _ => Attaches.bind ?_ (fun _ => hclose)
      fun _ => spares_expect_bind (by decide)
    exact attaches_items_sees hc (by decide) (by decide) (attaches_mask hn.basic)
  · exact attaches_expect.next fun _ => (attaches_mask hn.basic).bind (fun _ => hclose)
      fun _ => spares_expect_bind (by decide)

theorem attaches_string :
    Attaches place ahead (Settled ahead) (string c inner) (string c inner') := by
  have hend : Attaches place ahead (Settled ahead) (pure (.atom "string") : Parse DocType)
      (pure (.atom "string")) := attaches_pure _
  refine attaches_word.next fun w => Attaches.ite (attaches_sees hc (by decide) ?_ hend) hend
  refine attaches_skip.next fun _ => hn.whole.bind (fun t => Attaches.ite ?_ attaches_fail_bind)
    fun t => (spares_expect_bind (by decide)).ite spares_fail_bind
  exact attaches_expect.next fun _ => hend

theorem attaches_array : Attaches place ahead (Settled ahead) (array c inner) (array c inner') := by
  have hend : Attaches place ahead (Settled ahead) (pure (.atom "array") : Parse DocType)
      (pure (.atom "array")) := attaches_pure _
  have hclose : Attaches place ahead (Settled ahead) (do
      expect ">"
      return DocType.atom "array") (do
      expect ">"
      return DocType.atom "array") := attaches_expect.next fun _ => hend
  refine attaches_word.next fun w => attaches_sees hc (by decide)
    (attaches_skip.next fun _ => ?_) ?_
  · refine hn.whole.bind (fun t => attaches_sees hc (by decide) ?_ hclose)
      fun t => spares_sees (by decide) (spares_expect_bind (by decide))
    refine Attaches.ite attaches_fail_bind (Attaches.ite ?_ attaches_fail_bind)
    exact attaches_skip.next fun _ => hn.whole.bind (fun _ => hclose)
      fun _ => spares_expect_bind (by decide)
  · refine attaches_sees hc (by decide) (Attaches.ite attaches_fail_bind ?_) hend
    exact (attaches_shape hc hn.eats hn.whole false).bind (fun _ => hend) fun _ => spares_pure _

def signature (inner : Nested) (t : DocType) : Parse DocType := do
  if ← sees "(" then
    skip
    parametersTo inner ((← get).rest.length + 1)
    expect ":"
    let _ ← if ← sees "?" then inner.whole else inner.single
  return t

theorem attaches_signature (t : DocType) :
    Attaches place ahead (Settled ahead) (signature inner t) (signature inner' t) := by
  refine attaches_sees hc (by decide) (attaches_skip.next fun _ => ?_) (attaches_pure t)
  have hparameters : Attaches place ahead (Settled ahead)
      (do parametersTo inner ((← get).rest.length + 1))
      (do parametersTo inner' ((← get).rest.length + 1)) :=
    attaches_get_rounds (f := parametersTo inner) (u := parametersTo inner') rfl
      fun _ _ => attaches_parametersTo_succ hn.eats hn.whole
  refine hparameters.bind (fun _ => attaches_expect.next fun _ => ?_)
    fun _ => spares_expect_bind (by decide)
  exact attaches_sees hc (by decide)
    (hn.whole.bind (fun _ => attaches_pure t) fun _ => spares_pure t)
    (hn.single.bind (fun _ => attaches_pure t) fun _ => spares_pure t)

theorem attaches_callable :
    Attaches place ahead (Settled ahead) (callable inner) (callable inner') :=
  attaches_take_bind (fun _ => attaches_signature hc hn _) fun _ => rfl

omit hc in
theorem attaches_keyOrValue :
    Attaches place ahead (Settled ahead) (keyOrValue c inner) (keyOrValue c inner') := by
  refine attaches_skip.next fun _ => attaches_expect.next fun _ => hn.whole.bind (fun t => ?_)
    fun t => (spares_expect_bind (by decide)).ite spares_fail_bind
  exact Attaches.ite (attaches_expect.next fun _ => attaches_pure _) attaches_fail_bind

theorem attaches_className :
    Attaches place ahead (Settled ahead) (className c inner) (className c inner') := by
  refine attaches_take_bind (fun l => Attaches.ite attaches_fail_bind ?_) fun _ => rfl
  exact attaches_sees hc (by decide)
    ((attaches_arguments hc hn.whole _).bind (fun _ => attaches_pure _) fun _ => spares_pure _)
    (attaches_pure _)

end

omit hc in
theorem boundAhead_of_unfinished {s : Reader} (hs : Unfinished s.rest) : boundAhead s = none := by
  obtain ⟨o, l, hr, -, -⟩ | ⟨o, hr, -⟩ := hs
  all_goals simp [boundAhead, Reader.shows, hr]

/-- No name is bound ahead of those that are settled. -/
theorem boundAhead_append {ls : List Lexeme} (hs : Settled ahead ls) (ws ws' : List Nat) :
    boundAhead ⟨ls.map (relocated place) ++ ahead, ws'⟩ = boundAhead ⟨ls, ws⟩ := by
  by_cases hne : ahead = []
  · subst hne
    rcases ls with _ | ⟨o, _ | ⟨l, _ | ⟨k, ls⟩⟩⟩ <;> rfl
  obtain ⟨e, rest, rfl⟩ := List.exists_cons_of_ne_nil hne
  have he : e.text ≠ "(" := fun he => hc.sign e rfl (by simp [he, goingOn])
  have hname : Text.beginsWith "\\" e.text = false := by simpa [IsAbsolute] using hc.name e rfl
  rcases ls with _ | ⟨o, _ | ⟨l, _ | ⟨k, ls⟩⟩⟩
  · simp [boundAhead, Reader.shows, he]
  · simp [boundAhead, Reader.shows, hname]
  · have hopen : o.text = "(" → Text.beginsWith "\\" l.text = false := fun ho =>
      Bool.eq_false_iff.mpr fun hl => hs hne (.inl ⟨o, l, rfl, ho, hl⟩)
    by_cases ho : o.text = "("
    · simp [boundAhead, Reader.shows, relocated, ho, hopen ho]
    · simp [boundAhead, Reader.shows, relocated, ho]
  · rfl

theorem attaches_static : Attaches place ahead (Settled ahead) (static c) (static c) := by
  obtain ⟨late, hlate⟩ := exists_scopeStatic_eq c
  have hspares : Spares (scopeStatic c) := hlate ▸ spares_pure late
  have hscope : Attaches place ahead (Settled ahead) (scopeStatic c) (scopeStatic c) :=
    hlate ▸ attaches_pure late
  have hname : ∀ o, Attaches place ahead (Settled ahead) (staticOf c o) (staticOf c o) := by
    intro o
    cases o with
    | none => exact hscope
    | some name =>
      exact attaches_skip.next fun _ => attaches_skip.next fun _ => attaches_skip.next
        fun _ => attaches_pure _
  rw [static_eq]
  refine attaches_skip.next fun _ => ?_
  intro ls ws t ms ws' h hms words
  have hls : Settled ahead ls := by
    intro hne hu
    simp only [boundAhead_of_unfinished (s := ⟨ls, ws⟩) hu] at h
    exact hms hne (hspares _ _ _ hu h)
  simp only [boundAhead_append hc hls ws words]
  exact hname _ ls ws t ms ws' h hms words

section
variable (hn : NestedAttaches place ahead inner inner')
include hn

theorem attaches_stem (k : Construct) :
    Attaches place ahead (Settled ahead) (stem c inner k) (stem c inner' k) := by
  have hword : ∀ t : DocType, Attaches place ahead (Settled ahead) (do
      let _ ← word
      return t) (do
      let _ ← word
      return t) := fun t => attaches_word.next fun _ => attaches_pure t
  cases k with
  | bool => exact hword _
  | int => exact attaches_int hc hn
  | float => exact hword _
  | string => exact attaches_string hc hn
  | array => exact attaches_array hc hn
  | object =>
    refine attaches_skip.next fun _ => attaches_sees hc (by decide) ?_ (attaches_pure _)
    exact (attaches_shape hc hn.eats hn.whole true).bind (fun _ => attaches_pure _)
      fun _ => spares_pure _
  | never => exact hword _
  | plain => exact attaches_take_bind (fun l => attaches_pure (DocType.atom l.text)) fun _ => rfl
  | self => exact attaches_skip.next fun _ => attaches_pure _
  | parent => exact attaches_skip.next fun _ => attaches_pure _
  | static => exact attaches_static hc
  | callable => exact attaches_callable hc hn
  | iterable =>
    refine attaches_skip.next fun _ => attaches_sees hc (by decide) ?_ (attaches_pure _)
    exact (attaches_arguments hc hn.whole _).bind (fun _ => attaches_pure _) fun _ => spares_pure _
  | keyOrValue => exact attaches_keyOrValue hn
  | className => exact attaches_className hc hn

omit hn

def constantAfter (c : Context) (t : DocType) : Parse DocType := do
  if (← sees "::") && (c.hierarchy.superTypes t.text).contains "object" then
    skip
    constantName
    return c.unknown
  else return t

theorem attaches_constantAfter (t : DocType) :
    Attaches place ahead P (constantAfter c t) (constantAfter c t) := by
  unfold constantAfter
  cases (c.hierarchy.superTypes t.text).contains "object" with
  | false =>
    simp only [Bool.and_false, Bool.false_eq_true, if_false]
    exact attaches_pure t
  | true =>
    simp only [Bool.and_true]
    refine attaches_sees hc (by decide) (attaches_skip.next fun _ => ?_) (attaches_pure t)
    exact (attaches_constantName hc).next fun _ => attaches_pure _

omit hc in
theorem spares_constantAfter (t : DocType) : Spares (constantAfter c t) := by
  unfold constantAfter
  cases (c.hierarchy.superTypes t.text).contains "object" with
  | false =>
    simp only [Bool.and_false, Bool.false_eq_true, if_false]
    exact spares_pure t
  | true =>
    simp only [Bool.and_true]
    exact spares_sees (by decide) (spares_pure t)

def bracketsAfter (t : DocType) : Parse DocType := do
  bracketsTo t (← get).rest.length

theorem attaches_bracketsAfter (t : DocType) :
    Attaches place ahead P (bracketsAfter t) (bracketsAfter t) := by
  intro ls ws u ms ws' h _ words
  have hle : ls.length ≤ (ls.map (relocated place) ++ ahead).length := by simp
  exact reads_bracketsTo hc (Nat.le_refl _) hle h words

omit hc in
theorem spares_bracketsAfter (t : DocType) : Spares (bracketsAfter t) := by
  intro s u v hs h
  have hlook : bracketsTo t s.rest.length s = .ok (u, v) := h
  rw [bracketsTo_of_shows (by simp [hs.shows (x := "[") (by decide)])] at hlook
  cases hlook
  exact hs

omit hc in
theorem attaches_join (parts : List DocType) :
    Attaches place ahead P (join c parts) (join c parts) := by
  obtain ⟨ms, he⟩ | he := join_pure_or_fail c parts
  · exact he ▸ attaches_pure ms
  · exact he ▸ attaches_fail

omit hc in
theorem spares_join (parts : List DocType) : Spares (join c parts) := by
  obtain ⟨ms, he⟩ | he := join_pure_or_fail c parts
  · exact he ▸ spares_pure ms
  · exact he ▸ spares_fail

include hn

theorem attaches_basic : Attaches place ahead (Settled ahead) (basic c inner) (basic c inner') := by
  refine attaches_next?_bind (fun l => ?_) needs_fail fun _ => rfl
  rw [Option.bind_some]
  cases construct? c.scope l with
  | none => exact attaches_fail
  | some k => exact (attaches_stem hc hn k).bind (attaches_constantAfter hc) spares_constantAfter

theorem attaches_single :
    Attaches place ahead (Settled ahead) (single c inner) (single c inner') := by
  refine attaches_sees hc (by decide) (attaches_skip.next fun _ => ?_)
    ((attaches_basic hc hn).bind (attaches_bracketsAfter hc) spares_bracketsAfter)
  refine hn.bracketed.seq (fun t => attaches_expect.next fun _ => attaches_bracketsAfter hc t)
    fun t s u v h hv => ⟨?_, ?_⟩
  · exact (spares_expect_bind (by decide)).settled h hv
  · intro hnil
    obtain ⟨rest, words⟩ := s
    subst hnil
    exact needs_expect.bind _ _ h

theorem attaches_intersection :
    Attaches place ahead (Settled ahead) (intersection c inner) (intersection c inner') := by
  rw [intersection_eq, intersection_eq]
  exact (attaches_items joins_eq (fun _ => joinsAhead_of_unfinished)
    (fun _ ws ws' hs => joinsAhead_append hc hs ws ws') (attaches_single hc hn)).bind
    attaches_join spares_join

theorem attaches_whole : Attaches place ahead (Settled ahead) (whole c inner) (whole c inner') := by
  refine attaches_sees hc (by decide) (attaches_skip.next fun _ =>
    (attaches_single hc hn).bind (fun _ => attaches_pure _) fun _ => spares_pure _) ?_
  exact (attaches_items_sees hc (by decide) (by decide) (attaches_intersection hc hn)).bind
    (fun _ => attaches_pure _) fun _ => spares_pure _

/-- A type in parentheses is followed by a parenthesis that closes. -/
theorem attaches_bracketed (he : Eats 1 (whole c inner)) :
    Attaches place ahead (fun ms => Settled ahead ms ∧ ms ≠ []) (bracketed c inner)
      (bracketed c inner') := by
  have hvariable : Blind place ahead 1 fun s => s.rest.head?.any (·.kind == .variable) :=
    blind_head (f := fun o => o.any (·.kind == .variable)) fun _ => rfl
  have hlook : Blind place ahead 2 fun s =>
      s.rest.head?.any (·.kind == .variable) && s.shows 1 "is" := fun ls ws ws' hl => by
    have hhead := hvariable.le (j := 2) (by decide) ls ws ws' hl
    simp only at hhead
    simp only [hhead, blind_shows 1 ls ws ws' hl]
  refine hlook.attaches_ite ((attaches_skip.next fun _ => attaches_skip.next fun _ =>
    (hn.whole.bind (fun _ => attaches_expect.next fun _ => ?_) fun _ => ?_)).mono fun _ => And.left)
    ((attaches_whole hc hn).mono fun _ => And.left) (fun ls ws hl => ?_)
    fun ls ws t ms ws' hl h hms => ?_
  · refine hn.whole.bind (fun _ => attaches_expect.next fun _ => ?_)
      fun _ => spares_expect_bind (by decide)
    exact hn.whole.bind (fun _ => attaches_pure _) fun _ => spares_pure _
  · exact spares_expect_bind (by decide)
  · have hfew : Reader.shows 1 "is" ⟨ls, ws⟩ = false :=
      Bool.eq_false_iff.mpr fun hs =>
        Nat.lt_irrefl _ (Nat.lt_of_lt_of_le hl (lt_length_of_shows hs))
    simp [hfew]
  · obtain ⟨read, hr, hlen⟩ := he ⟨ls, ws⟩ t ⟨ms, ws'⟩ h
    have hms : 0 < ms.length := List.length_pos_iff.mpr hms.2
    have hls : ls.length = read.length + ms.length := by rw [← List.length_append, ← hr]
    omega

end

theorem nestedAttaches {depth depth' : Nat} (hd : depth ≤ depth') :
    NestedAttaches place ahead (nested c depth) (nested c depth') := by
  induction depth generalizing depth' with
  | zero => exact ⟨attaches_fail, attaches_fail, attaches_fail, attaches_fail, eats_fail⟩
  | succ depth ih =>
    obtain ⟨k, rfl⟩ : ∃ k, depth' = k + 1 := ⟨depth' - 1, by omega⟩
    have hn := ih (Nat.le_of_succ_le_succ hd)
    have halone : NestedDetaches (fun _ => false) [] 0 (nested c (depth + 1)) (nested c 0) :=
      nestedDetaches (depth + 1) 0
    exact ⟨attaches_whole hc hn, attaches_bracketed hc hn halone.whole.eats, attaches_single hc hn,
      attaches_basic hc hn, halone.whole.eats⟩

/-- A type that stands alone is read alike before lexemes with which it does not go on. -/
theorem attaches_type : Attaches place ahead (Settled ahead) (type c) (type c) :=
  attaches_get_bind (f := fun b => (nested c (b + 1)).whole)
    (u := fun b => (nested c (b + 1)).whole)
    fun _ _ hb => (nestedAttaches hc (Nat.succ_le_succ hb)).whole

/-- A type that is read to its end leaves what follows it, and notes the same words. -/
theorem type_before {ls : List Lexeme} {t : DocType} {words : List Nat}
    (h : type c ⟨ls, []⟩ = .ok (t, ⟨[], words⟩)) :
    type c ⟨ls ++ ahead, []⟩ = .ok (t, ⟨ahead, words⟩) := by
  have hplace : ls.map (relocated id) = ls := List.map_id ls
  have hspace : ls.map (Lexeme.respaced Lexeme.spaced) = ls := List.map_id ls
  have htype : Attaches id ahead (Settled ahead) (type c) (type c) := attaches_type hc
  have hread := htype ls [] t [] words h settled_nil
  rw [hplace] at hread
  obtain ⟨words', hw⟩ := hread []
  have halone :=
    (detaches_type (g := Lexeme.spaced)).alone ls [] t [] words' (Nat.lt_succ_self _) hw
  rw [hspace, h] at halone
  cases halone
  exact hw

end
end Grammar
end PhpDoc
