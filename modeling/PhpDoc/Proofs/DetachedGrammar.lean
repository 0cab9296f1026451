import PhpDoc.Proofs.Detaching
import PhpDoc.Proofs.RespelledGrammar
/-!
Types that stand alone. All constructs of the grammar read a type alike whether other lexemes follow it
or none.
-/
namespace PhpDoc

namespace Grammar
open Parse
open Lexeme (respaced)
variable {c : Context} {inner inner' : Nested} {g : Lexeme → Bool} {ahead : List Lexeme}
  {i j m n : Nat} {l : Lexeme} {k : Construct}

structure NestedDetaches (g : Lexeme → Bool) (ahead : List Lexeme) (n : Nat) (inner inner' : Nested) :
    Prop where
  whole : Detaches g ahead 1 n inner.whole inner'.whole
  bracketed : Detaches g ahead 1 n inner.bracketed inner'.bracketed
  single : Detaches g ahead 1 n inner.single inner'.single
  basic : Detaches g ahead 1 n inner.basic inner'.basic

/-- Where no argument may follow, a comma is as wrong as any other sign. -/
theorem argumentsTo_succ (inner : Nested) (bound : Nat) : argumentsTo inner (bound + 1) = (do
    let _ ← inner.whole
    if ← sees "," then
      skip
      argumentsTo inner bound
    else expect ">") := by
  have hcomma : ∀ b : Bool, ∀ s : Reader, (s.rest[0]?).any (·.text == ",") = b →
      (if (bound = 0 || !b) = true then expect ">"
        else skip >>= fun _ => argumentsTo inner bound : Parse Unit) s =
      (if b = true then skip >>= fun _ => argumentsTo inner bound else expect ">" : Parse Unit) s := by
    intro b s hb
    cases b with
    | false => simp
    | true =>
      cases bound with
      | zero =>
        obtain ⟨rest, words⟩ := s
        cases rest with
        | nil => cases hb
        | cons l rest =>
          obtain ⟨kind, start, text, spaced⟩ := l
          obtain rfl : text = "," := by simpa using hb
          rfl
      | succ bound => simp
  refine congrArg (fun p : Parse Unit => inner.whole >>= fun _ => p) ?_
  funext s
  exact hcomma _ s rfl

theorem detaches_argumentsTo_succ {b b' : Nat} (hw : Detaches g ahead 1 j inner.whole inner'.whole)
    (h : Detaches g ahead 1 (j - 1) (argumentsTo inner b) (argumentsTo inner' b')) :
    Detaches g ahead 1 j (argumentsTo inner (b + 1)) (argumentsTo inner' (b' + 1)) := by
  rw [argumentsTo_succ, argumentsTo_succ]
  refine hw.after fun _ => ?_
  exact detaches_sees (detaches_skip.bind fun _ => h.any) detaches_expect.any

theorem detaches_arguments (hw : Detaches g ahead 1 n inner.whole inner'.whole) (most : Option Nat) :
    Detaches g ahead 1 n (arguments inner most) (arguments inner' most) := by
  have hstep : ∀ b b' j, j ≤ n →
      Detaches g ahead 1 (j - 1) (argumentsTo inner b) (argumentsTo inner' b') →
      Detaches g ahead 1 j (argumentsTo inner (b + 1)) (argumentsTo inner' (b' + 1)) :=
    fun _ _ _ hj => detaches_argumentsTo_succ (hw.below hj)
  refine detaches_expect.bind fun _ => Detaches.any (i := 1) ?_
  cases most with
  | none => exact detaches_get_rounds (f := argumentsTo inner) (u := argumentsTo inner') rfl hstep
  | some bound =>
    have hsame : ∀ b j, j ≤ n → Detaches g ahead 1 j (argumentsTo inner b) (argumentsTo inner' b) := by
      intro b
      induction b with
      | zero => exact fun _ _ => detaches_fail
      | succ b ih => exact fun j hj => hstep b b j hj (ih (j - 1) (by omega))
    exact detaches_get_bind (f := fun _ => argumentsTo inner bound)
      (u := fun _ => argumentsTo inner' bound) fun _ _ j hj _ _ => hsame bound j hj

theorem detaches_requiredKey : Detaches g ahead 1 n requiredKey requiredKey := by
  refine detaches_next?_bind (fun l => Detaches.ite ?_ detaches_fail) detaches_fail (fun _ _ => rfl)
    fun _ _ => rfl
  exact detaches_skip.bind fun _ => detaches_accept.bind fun _ => detaches_expect.any

theorem detaches_rangeBound (keyword : String) :
    Detaches g ahead 1 n (rangeBound keyword) (rangeBound keyword) :=
  detaches_next?_bind (fun _ => detaches_skip.ite detaches_fail) detaches_fail (fun _ _ => rfl)
    fun _ _ => rfl

theorem detaches_mask (hb : Detaches g ahead 1 n inner.basic inner'.basic) :
    Detaches g ahead 1 n (mask c inner) (mask c inner') := by
  refine ⟨fun s x t h => ?_, fun ls ws x ms ws' hl h => ?_⟩
  · obtain ⟨a, ha, -⟩ := mask_eq_ok.mp h
    exact hb.eats s a t ha
  · obtain ⟨a, ha, hf⟩ := mask_eq_ok.mp h
    exact mask_eq_ok.mpr ⟨a, hb.alone ls ws a ms ws' hl ha, hf⟩

def isShapeKey (l : Lexeme) : Bool :=
  match l.kind with
  | .name => !l.text.toList.contains '\\'
  | .number => !l.text.toList.contains '.'
  | .quoted => true
  | _ => false

/-- The key of an array shape is read with all the signs that tell that it is one. -/
theorem optionalKey_eq (s : Reader) : optionalKey s =
    (if (s.rest[0]?).any isShapeKey && s.shows 1 ":" then do
      skip
      skip
    else if (s.rest[0]?).any isShapeKey && (s.shows 1 "?" && s.shows 2 ":") then do
      skip
      skip
      skip
    else pure () : Parse Unit) s := by
  obtain ⟨rest, words⟩ := s
  cases rest with
  | nil => rfl
  | cons l rest =>
    have hkey : optionalKey ⟨l :: rest, words⟩ = (if isShapeKey l then
        fun s => (if s.shows 1 ":" || s.shows 1 "?" && s.shows 2 ":" then do
          skip
          accept "?"
          accept ":"
        else pure ()) s
      else pure () : Parse Unit) ⟨l :: rest, words⟩ := rfl
    rw [hkey]
    cases hl : isShapeKey l with
    | false => simp [hl]
    | true =>
      simp only [List.getElem?_cons_zero, Option.any_some, hl, Bool.true_and, if_true]
      match rest with
      | [] => rfl
      | ⟨_, _, x, _⟩ :: rest =>
        by_cases hx : x = ":"
        · subst hx
          rfl
        · match rest with
          | [] => simp [Reader.shows, hx]
          | ⟨_, _, z, _⟩ :: rest =>
            by_cases hq : x = "?" ∧ z = ":"
            · obtain ⟨rfl, rfl⟩ := hq
              rfl
            · simp [Reader.shows, hx, hq]

theorem detaches_optionalKey : Detaches g ahead 0 n optionalKey optionalKey := by
  have hkey : Looks g ahead 1 (fun s => (s.rest[0]?).any isShapeKey) false :=
    looks_at (g := g) 0 (f := fun o : Option Lexeme => o.any isShapeKey) fun _ => rfl
  have htwo : Detaches g ahead 2 n (skip >>= fun _ => skip) (skip >>= fun _ => skip) :=
    detaches_skip.seq (fun _ => detaches_skip) (Nat.le_add_right _ _)
  have hthree : Detaches g ahead 3 n (skip >>= fun _ => skip >>= fun _ => skip)
      (skip >>= fun _ => skip >>= fun _ => skip) :=
    detaches_skip.seq (fun _ => htwo) (Nat.le_add_right _ _)
  have hmarks : Looks g ahead 3 (fun s => s.shows 1 "?" && s.shows 2 ":") false :=
    (looks_shows 1 "?").and (looks_shows 2 ":") (by decide)
  have hlong := (hkey.and hmarks (by decide)).detaches_ite hthree (detaches_pure ()) (Nat.zero_le 3)
  have hall := (hkey.and (looks_shows 1 ":") (by decide)).detaches_ite htwo hlong (Nat.zero_le 2)
  have hlooks : optionalKey = fun s =>
      (if (s.rest[0]?).any isShapeKey && s.shows 1 ":" then skip >>= fun _ => skip
      else fun s => (if (s.rest[0]?).any isShapeKey && (s.shows 1 "?" && s.shows 2 ":") then
        skip >>= fun _ => skip >>= fun _ => skip else pure ()) s : Parse Unit) s := by
    funext s
    rw [optionalKey_eq]
    split
    · rfl
    · rfl
  rw [hlooks]
  exact hall

theorem detaches_entriesTo_succ {keyed : Bool} {b b' : Nat}
    (hw : Detaches g ahead 1 j inner.whole inner'.whole)
    (h : Detaches g ahead 0 (j - 1) (entriesTo inner keyed b) (entriesTo inner' keyed b')) :
    Detaches g ahead 0 j (entriesTo inner keyed (b + 1)) (entriesTo inner' keyed (b' + 1)) := by
  have hrest : Detaches g ahead 0 j (do
      let _ ← inner.whole
      if ← sees "," then
        skip
        if ← sees "\x7d" then skip else entriesTo inner keyed b
      else expect "\x7d") (do
      let _ ← inner'.whole
      if ← sees "," then
        skip
        if ← sees "\x7d" then skip else entriesTo inner' keyed b'
      else expect "\x7d") := by
    refine Detaches.any (hw.after fun _ => ?_)
    refine detaches_sees (detaches_skip.bind fun _ => ?_) detaches_expect.any
    exact detaches_sees detaches_skip h
  cases keyed with
  | true => exact detaches_requiredKey.next fun _ => hrest
  | false =>
    refine detaches_sees (detaches_skip.bind fun _ => detaches_expect.any) ?_
    exact detaches_optionalKey.bind fun _ => hrest

theorem detaches_shape (hw : Detaches g ahead 1 n inner.whole inner'.whole) (keyed : Bool) :
    Detaches g ahead 1 n (shape inner keyed) (shape inner' keyed) := by
  refine detaches_expect.bind fun _ => detaches_sees detaches_skip ?_
  exact detaches_get_rounds (f := entriesTo inner keyed) (u := entriesTo inner' keyed) rfl
    fun _ _ _ hj => detaches_entriesTo_succ (hw.below hj)

theorem detaches_parametersTo_succ {b b' : Nat}
    (hw : Detaches g ahead 1 j inner.whole inner'.whole)
    (h : Detaches g ahead 1 (j - 1) (parametersTo inner b) (parametersTo inner' b')) :
    Detaches g ahead 1 j (parametersTo inner (b + 1)) (parametersTo inner' (b' + 1)) := by
  have hrest : Detaches g ahead 0 (j - 1) (do
      if !(← sees ")") then expect ","
      parametersTo inner b) (do
      if !(← sees ")") then expect ","
      parametersTo inner' b') := by
    refine (looks_shows 0 ")").detaches (f := fun b' => do
      if !b' then expect ","
      parametersTo inner b) (u := fun b => do
      if !b then expect ","
      parametersTo inner' b') (fun b hb => ?_) ?_ (Nat.zero_le 1)
    · obtain rfl : b = true := by simpa using hb
      exact h
    · exact detaches_expect.next fun _ => h.any
  have hvariable : Looks g ahead 1 (fun s => s.rest.head?.any (·.kind == .variable)) false :=
    looks_head (g := g) (f := fun o : Option Lexeme => o.any (·.kind == .variable)) fun _ => rfl
  refine detaches_begins detaches_skip (hw.after fun _ => ?_)
  refine detaches_accept.bind fun _ => detaches_accept.bind fun _ => detaches_accept.bind fun _ => ?_
  exact hvariable.detaches_ite (detaches_skip.bind fun _ => hrest) hrest (Nat.zero_le 1)

theorem detaches_parameters (hw : Detaches g ahead 1 n inner.whole inner'.whole) :
    Detaches g ahead 1 n (do parametersTo inner ((← get).rest.length + 1))
      (do parametersTo inner' ((← get).rest.length + 1)) :=
  detaches_get_rounds (f := parametersTo inner) (u := parametersTo inner') rfl
    fun _ _ _ hj => detaches_parametersTo_succ (hw.below hj)

theorem detaches_constantName : Detaches g ahead 0 n constantName constantName := by
  have hrest : ∀ b : Bool, Detaches g ahead 0 n (do
      if ← sees "*" then skip
      else if !b then fail) (do
      if ← sees "*" then skip
      else if !b then fail) := fun b =>
    detaches_sees detaches_skip (detaches_fail.ite (detaches_pure ()))
  refine (looks_head (g := g) (f := fun o : Option Lexeme => o.any fun l => beginsConstant l.text)
    fun _ => rfl).detaches
    (f := fun named => do
      if named then skip
      if ← sees "*" then skip
      else if !named then fail) (u := fun named => do
      if named then skip
      if ← sees "*" then skip
      else if !named then fail) (fun b hb => ?_) (hrest false) (Nat.zero_le 1)
  obtain rfl : b = true := by simpa using hb
  exact detaches_skip.bind fun _ => hrest true

theorem looks_joinsAhead : Looks g ahead 2 joinsAhead false :=
  (looks_shows 0 "&").and (looks_at (g := g) 1 (f := fun o : Option Lexeme => o.any fun l =>
    !(["...", "=", ",", ")"].contains l.text) && l.kind != .variable) fun _ => rfl) (by decide)

theorem detaches_bracketsTo_succ {t : DocType} {b m : Nat}
    (h : Detaches g ahead 0 (j - 2) (bracketsTo (.atom "array") b) (bracketsTo (.atom "array") m)) :
    Detaches g ahead 0 j (bracketsTo t (b + 1)) (bracketsTo t (m + 1)) := by
  have hone : Detaches g ahead 1 (j - 1) (do
      skip
      bracketsTo (.atom "array") b) (do
      skip
      bracketsTo (.atom "array") m) := detaches_skip.seq (fun _ => h) (by omega)
  have hpair : Detaches g ahead 2 j (do
      skip
      skip
      bracketsTo (.atom "array") b) (do
      skip
      skip
      bracketsTo (.atom "array") m) := detaches_skip.seq (fun _ => hone) (by omega)
  exact ((looks_shows 0 "[").and (looks_shows 1 "]") (by decide)).detaches_ite hpair
    (detaches_pure t) (Nat.zero_le 2)

theorem detaches_bracketsTo {t : DocType} {b m : Nat} (hj : j ≤ m + 1) (hm : m ≤ b) :
    Detaches g ahead 0 j (bracketsTo t b) (bracketsTo t m) := by
  induction b generalizing t m j with
  | zero =>
    obtain rfl : m = 0 := Nat.le_zero.mp hm
    exact detaches_pure t
  | succ b ih =>
    cases m with
    | zero =>
      -- nothing is left to stand alone, so one round more changes nothing
      have h := detaches_bracketsTo_succ (t := t) (j := j)
        (ih (m := 0) (j := j - 2) (by omega) b.zero_le)
      refine ⟨h.eats, fun ls ws a ms ws' hl hp => ?_⟩
      obtain rfl : ls = [] := List.length_eq_zero_iff.mp (by omega)
      exact h.alone [] ws a ms ws' hl hp
    | succ m => exact detaches_bracketsTo_succ (ih (by omega) (by omega))

section
variable (hn : NestedDetaches g ahead (n - 1) inner inner')
include hn

theorem detaches_int : Detaches g ahead 1 n (int c inner) (int c inner') := by
  have hend : ∀ {n : Nat}, Detaches g ahead 0 n (pure (.atom "int") : Parse DocType)
      (pure (.atom "int")) := detaches_pure _
  have hclose : ∀ {n : Nat}, Detaches g ahead 0 n (do
      expect ">"
      return DocType.atom "int") (do
      expect ">"
      return DocType.atom "int") := detaches_expect.next fun _ => hend
  refine detaches_word.after fun w => Detaches.ite ?_ (Detaches.ite ?_ (Detaches.ite ?_ hend))
  · refine detaches_sees (detaches_skip.bind fun _ => ?_) hend
    exact (detaches_rangeBound _).next fun _ => detaches_expect.next fun _ =>
      (detaches_rangeBound _).next fun _ => hclose
  · refine detaches_expect.next fun _ => Detaches.next (i := 1) ?_ fun _ => hclose
    exact detaches_items (detaches_mask hn.basic) (fun _ => rfl) ((looks_shows 0 ",").le (by decide))
  · exact detaches_expect.next fun _ => (detaches_mask hn.basic).next fun _ => hclose

theorem detaches_string : Detaches g ahead 1 n (string c inner) (string c inner') := by
  have hend : ∀ {n : Nat}, Detaches g ahead 0 n (pure (.atom "string") : Parse DocType)
      (pure (.atom "string")) := detaches_pure _
  refine detaches_word.after fun w => Detaches.ite (detaches_sees ?_ hend) hend
  refine detaches_skip.bind fun _ => hn.whole.next fun t => Detaches.ite ?_ detaches_fail_bind
  exact detaches_expect.next fun _ => hend

theorem detaches_array : Detaches g ahead 1 n (array c inner) (array c inner') := by
  have hend : ∀ {n : Nat}, Detaches g ahead 0 n (pure (.atom "array") : Parse DocType)
      (pure (.atom "array")) := detaches_pure _
  have hclose : ∀ {n : Nat}, Detaches g ahead 1 n (do
      expect ">"
      return DocType.atom "array") (do
      expect ">"
      return DocType.atom "array") := detaches_expect.bind fun _ => hend
  refine detaches_word.after fun w => detaches_sees (detaches_skip.bind fun _ => ?_) ?_
  · refine hn.whole.next fun t => detaches_sees ?_ hclose.any
    refine Detaches.ite detaches_fail_bind (Detaches.ite ?_ detaches_fail_bind)
    exact detaches_skip.bind fun _ => hn.whole.next fun _ => hclose.any
  · refine detaches_sees (Detaches.ite detaches_fail_bind ?_) hend
    exact (detaches_shape hn.whole false).bind fun _ => hend

theorem detaches_callable : Detaches g ahead 1 n (callable inner) (callable inner') := by
  refine detaches_take_bind (fun l => detaches_sees (detaches_skip.bind fun _ => ?_) (detaches_pure _))
    fun _ => rfl
  refine (detaches_parameters hn.whole).next fun _ => detaches_expect.next fun _ => ?_
  exact detaches_sees (hn.whole.bind fun _ => detaches_pure _) (hn.single.next fun _ => detaches_pure _)

theorem detaches_keyOrValue : Detaches g ahead 1 n (keyOrValue c inner) (keyOrValue c inner') := by
  refine detaches_skip.after fun _ => detaches_expect.next fun _ => hn.whole.next fun t => ?_
  exact Detaches.ite (detaches_expect.next fun _ => detaches_pure _) detaches_fail_bind

theorem detaches_className : Detaches g ahead 1 n (className c inner) (className c inner') := by
  refine detaches_take_bind (fun l => Detaches.ite detaches_fail_bind ?_) fun _ => rfl
  exact detaches_sees ((detaches_arguments hn.whole _).bind fun _ => detaches_pure _) (detaches_pure _)

end

def boundAhead (s : Reader) : Option String :=
  if s.shows 0 "(" && s.shows 2 ")" then
    (s.rest[1]?).bind fun l => if Text.beginsWith "\\" l.text then some l.text else none
  else none

def staticOf (c : Context) : Option String → Parse DocType
  | some n => do
    skip
    skip
    skip
    return .ofText (lateBound n)
  | none => scopeStatic c

theorem static_eq : static c = skip >>= fun _ => fun s => staticOf c (boundAhead s) s := by
  refine congrArg (fun p : Parse DocType => skip >>= fun _ => p) (funext fun s => ?_)
  have hlook : ∀ p q : Parse DocType, (do if (← sees "(") && (← seesAt 2 ")") then p else q) s =
      (if s.shows 0 "(" && s.shows 2 ")" then p else q : Parse DocType) s := fun _ _ => rfl
  refine (hlook _ _).trans ?_
  unfold boundAhead
  cases s.shows 0 "(" && s.shows 2 ")" with
  | false => rfl
  | true =>
    rw [if_pos rfl, if_pos rfl, bind_eq (p := get) rfl]
    cases s.rest[1]? with
    | none => rfl
    | some l =>
      by_cases hb : Text.beginsWith "\\" l.text = true
      · simp only [Option.bind_some, hb, if_true]
        rfl
      · simp only [Option.bind_some, hb, Bool.false_eq_true, if_false]
        rfl

theorem detaches_static : Detaches g ahead 1 n (static c) (static c) := by
  have hname : Looks g ahead 2 (fun s => (s.rest[1]?).bind fun l =>
      if Text.beginsWith "\\" l.text then some l.text else none) none :=
    looks_at (g := g) 1 (f := fun o : Option Lexeme => o.bind fun l =>
      if Text.beginsWith "\\" l.text then some l.text else none) fun _ => rfl
  have hparens : Looks g ahead 3 (fun s => s.shows 0 "(" && s.shows 2 ")") false :=
    (looks_shows 0 "(").and (looks_shows 2 ")") (by decide)
  have hlook : Looks g ahead 3 boundAhead none := hparens.ite (hname.le (by decide)) (Nat.le_refl 3)
  have hscope : Detaches g ahead 0 n (scopeStatic c) (scopeStatic c) := by
    obtain ⟨t, ht⟩ := exists_scopeStatic_eq c
    exact ht ▸ detaches_pure t
  rw [static_eq]
  refine detaches_skip.bind fun _ =>
    hlook.detaches (f := staticOf c) (u := staticOf c) (fun o ho => ?_) hscope (Nat.zero_le 3)
  obtain ⟨name, rfl⟩ := Option.ne_none_iff_exists'.mp ho
  exact detaches_skip.seq (fun _ => detaches_skip.seq (fun _ => detaches_skip.seq
    (fun _ => detaches_pure _) (Nat.le_add_right _ _)) (Nat.le_add_right _ _)) (Nat.le_add_right _ _)

section
variable (hn : NestedDetaches g ahead (n - 1) inner inner')
include hn

theorem detaches_stem (k : Construct) : Detaches g ahead 1 n (stem c inner k) (stem c inner' k) := by
  have hword : ∀ t : DocType, Detaches g ahead 1 n (do
      let _ ← word
      return t) (do
      let _ ← word
      return t) := fun t => detaches_word.bind fun _ => detaches_pure t
  cases k with
  | bool => exact hword _
  | int => exact detaches_int hn
  | float => exact hword _
  | string => exact detaches_string hn
  | array => exact detaches_array hn
  | object =>
    refine detaches_skip.after fun _ => detaches_sees ?_ (detaches_pure _)
    exact (detaches_shape hn.whole true).bind fun _ => detaches_pure _
  | never => exact hword _
  | plain => exact detaches_take_bind (fun l => detaches_pure (DocType.atom l.text)) fun _ => rfl
  | self => exact detaches_skip.bind fun _ => detaches_pure _
  | parent => exact detaches_skip.bind fun _ => detaches_pure _
  | static => exact detaches_static
  | callable => exact detaches_callable hn
  | iterable =>
    refine detaches_skip.after fun _ => detaches_sees ?_ (detaches_pure _)
    exact (detaches_arguments hn.whole _).bind fun _ => detaches_pure _
  | keyOrValue => exact detaches_keyOrValue hn
  | className => exact detaches_className hn

theorem detaches_basic : Detaches g ahead 1 n (basic c inner) (basic c inner') := by
  refine detaches_next?_bind (fun l => ?_) detaches_fail (fun _ _ => rfl) fun _ _ => rfl
  rw [Option.bind_some]
  cases construct? c.scope l with
  | none => exact detaches_fail
  | some k =>
    refine (detaches_stem hn k).bind fun t => ?_
    cases (c.hierarchy.superTypes t.text).contains "object" with
    | false =>
      simp only [Bool.and_false, Bool.false_eq_true, if_false]
      exact detaches_pure t
    | true =>
      simp only [Bool.and_true]
      refine detaches_sees (detaches_skip.bind fun _ => ?_) (detaches_pure t)
      exact detaches_constantName.bind fun _ => detaches_pure _

theorem detaches_single : Detaches g ahead 1 n (single c inner) (single c inner') := by
  have hend : ∀ {m : Nat} (t : DocType), Detaches g ahead 0 m (do bracketsTo t (← get).rest.length)
      (do bracketsTo t (← get).rest.length) := fun t =>
    detaches_get_bind (f := bracketsTo t) (u := bracketsTo t)
      fun _ _ _ _ hj hm => detaches_bracketsTo hj hm
  refine detaches_begins ?_ ((detaches_basic hn).bind hend)
  refine detaches_skip.after fun _ => hn.bracketed.next fun t => ?_
  exact detaches_expect.next fun _ => hend t

theorem detaches_intersection :
    Detaches g ahead 1 n (intersection c inner) (intersection c inner') := by
  rw [intersection_eq, intersection_eq]
  refine (detaches_items (detaches_single hn) joins_eq looks_joinsAhead).bind fun parts => ?_
  obtain ⟨ms, he⟩ | he := join_pure_or_fail c parts
  · exact he ▸ detaches_pure ms
  · exact he ▸ detaches_fail

theorem detaches_whole : Detaches g ahead 1 n (whole c inner) (whole c inner') := by
  refine detaches_begins
    (detaches_skip.bind fun _ => (detaches_single hn).next fun _ => detaches_pure _) ?_
  have hbar : Looks g ahead 2 (Reader.shows 0 "|") false := (looks_shows 0 "|").le (by decide)
  exact (detaches_items (detaches_intersection hn) (fun _ => rfl) hbar).bind
    fun _ => detaches_pure _

theorem detaches_bracketed : Detaches g ahead 1 n (bracketed c inner) (bracketed c inner') := by
  have hsecond : ∀ t : DocType, Detaches g ahead 0 (n - 1) (do
      expect ":"
      let second ← inner.whole
      return c.hierarchy.union (t.members ++ second.members)) (do
      expect ":"
      let second ← inner'.whole
      return c.hierarchy.union (t.members ++ second.members)) := fun t =>
    detaches_expect.next fun _ => hn.whole.next fun _ => detaches_pure _
  have hcondition : Detaches g ahead 2 n (do
      skip
      skip
      let _ ← inner.whole
      expect "?"
      let first ← inner.whole
      expect ":"
      let second ← inner.whole
      return c.hierarchy.union (first.members ++ second.members)) (do
      skip
      skip
      let _ ← inner'.whole
      expect "?"
      let first ← inner'.whole
      expect ":"
      let second ← inner'.whole
      return c.hierarchy.union (first.members ++ second.members)) := by
    refine detaches_skip.seq (j := 1) (m := n - 1) (fun _ => ?_) (by omega)
    exact detaches_skip.bind fun _ => hn.whole.next fun _ => detaches_expect.next fun _ =>
      hn.whole.next hsecond
  have hvariable : Looks g ahead 1 (fun s => s.rest.head?.any (·.kind == .variable)) false :=
    looks_head (g := g) (f := fun o : Option Lexeme => o.any (·.kind == .variable)) fun _ => rfl
  exact (hvariable.and (looks_shows 1 "is") (by decide)).detaches_ite hcondition
    (detaches_whole hn) (by decide)

end

theorem nestedDetaches (depth n : Nat) : NestedDetaches g ahead n (nested c depth) (nested c n) := by
  induction depth generalizing n with
  | zero => exact ⟨detaches_fail, detaches_fail, detaches_fail, detaches_fail⟩
  | succ depth ih =>
    have hn := ih (n - 1)
    cases n with
    | zero =>
      -- of no lexemes nothing is read, whatever the other readers are
      have hinner : NestedDetaches g ahead 0 (nested c (depth + 1)) (nested c 1) :=
        ⟨detaches_whole hn, detaches_bracketed hn, detaches_single hn, detaches_basic hn⟩
      exact ⟨detaches_of_eats hinner.whole.eats (Nat.zero_le 1),
        detaches_of_eats hinner.bracketed.eats (Nat.zero_le 1),
        detaches_of_eats hinner.single.eats (Nat.zero_le 1),
        detaches_of_eats hinner.basic.eats (Nat.zero_le 1)⟩
    | succ n =>
      exact ⟨detaches_whole hn, detaches_bracketed hn, detaches_single hn, detaches_basic hn⟩

/-- A type is read alike where nothing follows. -/
theorem detaches_type : Detaches g ahead 1 n (type c) (type c) :=
  detaches_get_bind (f := fun b => (nested c (b + 1)).whole) (u := fun m => (nested c (m + 1)).whole)
    fun b m _ _ hj _ => (nestedDetaches (b + 1) (m + 1)).whole.below hj

/-- A type has a lexeme. -/
theorem eats_type : Eats 1 (type c) := by
  have htype : Detaches Lexeme.spaced [] 1 0 (type c) (type c) := detaches_type
  exact htype.eats

end Grammar
end PhpDoc
