import PhpDoc.Proofs.Lexemes
import PhpDoc.Proofs.Yields
/-!
An invariant of all types that the grammar yields. It is enough that the atoms and the names that a
scope knows have it, and that the normal form of intersections and unions keeps it.
-/
namespace PhpDoc

namespace Grammar
open Parse

def constants : List String :=
  ["bool", "int", "float", "string", "array", "object", "never", "callable", "\\Closure",
    "iterable"] ++ Words.plain

structure IsClassText (n : String) : Prop where
  name : Lexing.IsName n
  noHyphen : '-' ∉ n.toList
  noEmpty : hasEmptySegment n.toList = false
  notReserved : Words.isReserved n = false
  closed : n.toList.getLast? ≠ some '\\'

structure StemInvariant (c : Context) (Q : List Member → Prop) : Prop where
  constant : ∀ w ∈ constants, Q [[w]]
  self : Q (scopeType c.scope.className "self").members
  parent : Q (scopeType c.scope.parentName "parent").members
  static : (c.scope.className = none ∨ c.scope.className = some "") → Q [["static"]]
  lateClass : ∀ n, c.scope.className = some n → n ≠ "" → Q (DocType.ofText (lateBound n)).members
  late : ∀ n, Lexing.IsName n → IsAbsolute n → Q (DocType.ofText (lateBound n)).members
  name : ∀ n, IsClassText n → Q (classType c.scope n).members
  unknown : Q c.unknown.members

/-- A property of lists of members and one of whole types that hold of all that is read: `Q` of
anything that may stand in a union, `W` of what is in normal form. -/
structure Invariant (c : Context) (Q : List Member → Prop) (W : DocType → Prop) : Prop
    extends StemInvariant c Q where
  whole : ∀ t, W t → Q t.members
  append : ∀ ms ns, Q ms → Q ns → Q (ms ++ ns)
  meet : ∀ ts : List DocType, ts ≠ [] → (∀ t ∈ ts, Q t.members ∧ t.isUnion = false) →
    (∀ a, ts.flatMap DocType.atoms = [a] → Q [[a]]) ∧
      ∀ m, c.hierarchy.intersection (ts.flatMap DocType.atoms) = some m → Q [m]
  union : ∀ ms, Q ms → W (c.hierarchy.union ms)

structure NestedYields (inner : Nested) (Q : List Member → Prop) (W : DocType → Prop) : Prop where
  whole : Yields Lexeme.IsProper inner.whole W
  bracketed : Yields Lexeme.IsProper inner.bracketed W
  single : Yields Lexeme.IsProper inner.single fun t => Q t.members
  basic : Yields Lexeme.IsProper inner.basic fun t => Q t.members

variable {c : Context} {Q Q' : List Member → Prop} {W : DocType → Prop} {inner : Nested}
  {L : Lexeme → Prop} {R : Unit → Prop}

theorem yields_argumentsTo (hw : Yields L inner.whole W) (bound : Nat) :
    Yields L (argumentsTo inner bound) fun _ => True := by
  induction bound with
  | zero => exact yields_fail
  | succ bound ih =>
    refine hw.next fun _ => (yields_sees _).next fun _ => yields_ite (yields_expect _) ?_
    exact yields_skip.next fun _ => ih

theorem yields_arguments (hw : Yields L inner.whole W) (most : Option Nat) :
    Yields L (arguments inner most) fun _ => True :=
  (yields_expect _).next fun _ => yields_get.next fun _ => yields_argumentsTo hw _

theorem yields_requiredKey : Yields L requiredKey fun _ => True := by
  refine yields_next?.next fun o => ?_
  cases o with
  | none => exact yields_fail
  | some l =>
    refine yields_ite ?_ yields_fail
    exact yields_skip.next fun _ => (yields_accept _).next fun _ => yields_expect _

theorem yields_optionalKey : Yields L optionalKey fun _ => True := by
  refine yields_next?.next fun o => ?_
  cases o with
  | none => exact yields_pure trivial
  | some l =>
    refine yields_ite ?_ (yields_pure trivial)
    refine (yields_seesAt _ _).next fun _ => (yields_seesAt _ _).next fun _ =>
      (yields_seesAt _ _).next fun _ => yields_ite ?_ (yields_pure trivial)
    exact yields_skip.next fun _ => (yields_accept _).next fun _ => yields_accept _

theorem yields_entriesTo (hw : Yields L inner.whole W) (keyed : Bool) (bound : Nat) :
    Yields L (entriesTo inner keyed bound) fun _ => True := by
  induction bound with
  | zero => exact yields_fail
  | succ bound ih =>
    have hrest : Yields L (do
        let _ ← inner.whole
        if ← sees "," then
          skip
          if ← sees "\x7d" then skip else entriesTo inner keyed bound
        else expect "\x7d") fun _ => True := by
      refine hw.next fun _ => (yields_sees _).next fun _ => yields_ite ?_ (yields_expect _)
      exact yields_skip.next fun _ => (yields_sees _).next fun _ => yields_ite yields_skip ih
    refine (yields_sees _).next fun _ => yields_ite ?_ ?_
    · exact yields_skip.next fun _ => yields_expect _
    · refine yields_ite ?_ ?_
      · exact yields_requiredKey.next fun _ => hrest
      · exact yields_optionalKey.next fun _ => hrest

theorem yields_shape (hw : Yields L inner.whole W) (keyed : Bool) :
    Yields L (shape inner keyed) fun _ => True := by
  refine (yields_expect _).next fun _ => (yields_sees _).next fun _ => yields_ite yields_skip ?_
  exact yields_get.next fun _ => yields_entriesTo hw keyed _

theorem yields_rangeBound (keyword : String) : Yields L (rangeBound keyword) fun _ => True := by
  refine yields_next?.next fun o => ?_
  cases o with
  | none => exact yields_fail
  | some l => exact yields_ite yields_skip yields_fail

theorem mask_eq_ok {s t : Reader} {x : Unit} : mask c inner s = .ok (x, t) ↔
    ∃ a, inner.basic s = .ok (a, t) ∧ c.hierarchy.fits (.atom "int") a = true := by
  unfold mask
  cases inner.basic s with
  | error e => simp
  | ok p =>
    obtain ⟨a, u⟩ := p
    by_cases hf : c.hierarchy.fits (.atom "int") a = true
    · simp [hf]
    · simp [hf]

theorem yields_mask {P : DocType → Prop} (hb : Yields L inner.basic P) :
    Yields L (mask c inner) fun _ => True := by
  intro s x t hL hp
  obtain ⟨a, ha, -⟩ := mask_eq_ok.mp hp
  exact ⟨trivial, (hb s a t hL ha).2⟩

theorem yields_parametersTo (hw : Yields L inner.whole W) (bound : Nat) :
    Yields L (parametersTo inner bound) fun _ => True := by
  induction bound with
  | zero => exact yields_fail
  | succ bound ih =>
    have hrest : Yields L (do
        if !(← sees ")") then expect ","
        parametersTo inner bound) fun _ => True := by
      refine (yields_sees _).next fun _ => yields_ite ?_ ih
      exact (yields_expect _).next fun _ => ih
    refine (yields_sees _).next fun _ => yields_ite yields_skip ?_
    refine hw.next fun _ => (yields_accept _).next fun _ => (yields_accept _).next fun _ =>
      (yields_accept _).next fun _ => yields_next?.next fun _ => yields_ite ?_ hrest
    exact yields_skip.next fun _ => hrest

theorem yields_constantName : Yields L constantName fun _ => True := by
  have hrest : ∀ b : Bool, Yields L (do
      if ← sees "*" then skip
      else if !b then fail) fun _ => True := fun b =>
    (yields_sees _).next fun _ => yields_ite yields_skip (yields_ite yields_fail (yields_pure trivial))
  refine yields_next?.next fun o => yields_ite ?_ (hrest _)
  exact yields_skip.next fun _ => hrest _

theorem yields_joins : Yields L joins fun _ => True := by
  refine (yields_sees _).next fun _ => yields_ite ?_ (yields_pure trivial)
  refine yields_get.next fun s => ?_
  split <;> exact yields_pure trivial

def meetOrFail (c : Context) (as : List String) : Parse (List Member) :=
  match c.hierarchy.intersection as with
  | some n => pure [n]
  | none => fail

def joinAtoms (c : Context) : List String → Parse (List Member)
  | [a] => pure [[a]]
  | as => meetOrFail c as

def join (c : Context) (parts : List DocType) : Parse (List Member) :=
  match parts, parts.any DocType.isUnion with
  | [t], true => pure t.members
  | _, true => fail
  | _, false => joinAtoms c (parts.flatMap DocType.atoms)

theorem intersection_eq (c : Context) (inner : Nested) :
    intersection c inner = items (single c inner) joins >>= join c :=
  rfl

/-- Joining reads nothing: it yields members, or fails. -/
theorem join_pure_or_fail (c : Context) (parts : List DocType) :
    (∃ ms, join c parts = pure ms) ∨ join c parts = fail := by
  unfold join joinAtoms meetOrFail
  split
  · exact .inl ⟨_, rfl⟩
  · exact .inr rfl
  · split
    · exact .inl ⟨_, rfl⟩
    · split
      · exact .inl ⟨_, rfl⟩
      · exact .inr rfl

def scopeStatic (c : Context) : Parse DocType :=
  match c.scope.className with
  | some name => if name = "" then pure (.atom "static") else pure (.ofText ("static(" ++ name ++ ")"))
  | none => pure (.atom "static")

/-- Whether the scope has a class or not, something stands for it. -/
theorem exists_scopeStatic_eq (c : Context) : ∃ t, scopeStatic c = pure t := by
  unfold scopeStatic
  split
  · split
    · exact ⟨_, rfl⟩
    · exact ⟨_, rfl⟩
  · exact ⟨_, rfl⟩

theorem later_of_ite {p : Prop} [Decidable p] {j k : Construct} {o : Option Construct}
    (h : (if p then some j else o) = some k) (hj : j ≠ k) : o = some k := by
  split at h
  · exact absurd (Option.some.inj h) hj
  · exact h

theorem mem_plain_of_construct? {scope : Scope} {l : Lexeme}
    (h : construct? scope l = some .plain) : l.text ∈ Words.plain := by
  dsimp only [construct?] at h
  iterate 7 replace h := later_of_ite h (by decide)
  by_contra hw
  rw [if_neg (by simpa using hw)] at h
  iterate 7 replace h := later_of_ite h (by decide)
  cases h

theorem of_construct?_className {scope : Scope} {l : Lexeme}
    (h : construct? scope l = some .className) : l.kind = .name ∧ '-' ∉ l.text.toList ∧
      hasEmptySegment l.text.toList = false ∧ Words.isReserved l.text = false := by
  dsimp only [construct?] at h
  iterate 14 replace h := later_of_ite h (by decide)
  split at h
  · next hc => simpa [and_assoc] using hc
  · cases h

theorem StemInvariant.mono (hI : StemInvariant c Q) {R : List Member → Prop}
    (hQ : ∀ ms, Q ms → R ms) : StemInvariant c R where
  constant w hw := hQ _ (hI.constant w hw)
  self := hQ _ hI.self
  parent := hQ _ hI.parent
  static hc := hQ _ (hI.static hc)
  lateClass n hn he := hQ _ (hI.lateClass n hn he)
  late n hn ha := hQ _ (hI.late n hn ha)
  name n hn := hQ _ (hI.name n hn)
  unknown := hQ _ hI.unknown

section Stem
variable (hI : StemInvariant c Q) (hn : NestedYields inner Q' W)
include hI hn

theorem yields_int : Yields Lexeme.IsProper (int c inner) fun t => Q t.members := by
  have hend : Yields Lexeme.IsProper (pure (.atom "int")) fun t : DocType => Q t.members :=
    yields_pure (hI.constant "int" (by decide))
  refine yields_word.next fun w => yields_ite ?_ (yields_ite ?_ (yields_ite ?_ hend))
  · refine (yields_sees _).next fun _ => yields_ite ?_ hend
    exact yields_skip.next fun _ => (yields_rangeBound _).next fun _ => (yields_expect _).next
      fun _ => (yields_rangeBound _).next fun _ => (yields_expect _).next fun _ => hend
  · exact (yields_expect _).next fun _ => (yields_items (yields_mask hn.basic) (yields_sees _)).next
      fun _ => (yields_expect _).next fun _ => hend
  · exact (yields_expect _).next fun _ => (yields_mask hn.basic).next
      fun _ => (yields_expect _).next fun _ => hend

theorem yields_string : Yields Lexeme.IsProper (string c inner) fun t => Q t.members := by
  have hend : Yields Lexeme.IsProper (pure (.atom "string")) fun t : DocType => Q t.members :=
    yields_pure (hI.constant "string" (by decide))
  refine yields_word.next fun w => yields_ite ?_ hend
  refine (yields_sees _).next fun _ => yields_ite ?_ hend
  refine yields_skip.next fun _ => hn.whole.next fun t => yields_ite ?_ ?_
  · exact (yields_expect _).next fun _ => hend
  · exact yields_fail_bind

theorem yields_array : Yields Lexeme.IsProper (array c inner) fun t => Q t.members := by
  have hend : Yields Lexeme.IsProper (pure (.atom "array")) fun t : DocType => Q t.members :=
    yields_pure (hI.constant "array" (by decide))
  refine yields_word.next fun w => (yields_sees _).next fun _ => yields_ite ?_ ?_
  · have hclose : Yields Lexeme.IsProper (do
        expect ">"
        pure (.atom "array")) fun t : DocType => Q t.members := (yields_expect _).next fun _ => hend
    refine yields_skip.next fun _ => hn.whole.next fun first => (yields_sees _).next
      fun _ => yields_ite ?_ hclose
    have hkey : Yields Lexeme.IsProper (if c.hierarchy.fits (.atom "array-key") first = true then do
        skip
        let _ ← inner.whole
        expect ">"
        pure (.atom "array")
      else do
        fail
        expect ">"
        pure (.atom "array")) fun t : DocType => Q t.members :=
      yields_ite (yields_skip.next fun _ => hn.whole.next fun _ => hclose)
        (yields_fail_bind)
    exact yields_ite (yields_fail_bind) hkey
  · refine (yields_sees _).next fun _ => yields_ite ?_ hend
    have hshape : Yields Lexeme.IsProper (do
        shape inner false
        pure (.atom "array")) fun t : DocType => Q t.members :=
      (yields_shape hn.whole _).next fun _ => hend
    exact yields_ite (yields_fail_bind) hshape

omit hn in
theorem yields_static : Yields Lexeme.IsProper (static c) fun t => Q t.members := by
  have hscope : Yields Lexeme.IsProper (scopeStatic c) fun t => Q t.members := by
    unfold scopeStatic
    cases hc : c.scope.className with
    | none => exact yields_pure (hI.static (Or.inl hc))
    | some n =>
      by_cases he : n = ""
      · simp only [he, if_true]
        exact yields_pure (hI.static (Or.inr (he ▸ hc)))
      · simp only [he, if_false]
        exact yields_pure (hI.lateClass n hc he)
  refine yields_skip.next fun _ => (yields_sees _).next fun _ => (yields_seesAt _ _).next
    fun _ => yields_ite ?_ hscope
  refine yields_get.bind fun s hs => ?_
  cases hb : s.rest[1]? with
  | none => exact hscope
  | some bound =>
    have hp : bound.IsProper := hs bound (List.mem_of_getElem? hb)
    by_cases ha : Text.beginsWith "\\" bound.text = true
    · simp only [ha, if_true]
      exact yields_skip.next fun _ => yields_skip.next fun _ => yields_skip.next
        fun _ => yields_pure (hI.late _ (hp (Or.inr ha)) ha)
    · simp only [ha]
      exact hscope

theorem yields_callable : Yields Lexeme.IsProper (callable inner) fun t => Q t.members := by
  have hend : ∀ l : Lexeme, Yields Lexeme.IsProper
      (pure (.atom (if l.text = "callable" then "callable" else "\\Closure")))
      fun t : DocType => Q t.members := by
    intro l
    refine yields_pure (hI.constant _ ?_)
    split <;> decide
  refine yields_take.next fun l => (yields_sees _).next fun _ => yields_ite ?_ (hend l)
  refine yields_skip.next fun _ => yields_get.next fun _ => (yields_parametersTo hn.whole _).next
    fun _ => (yields_expect _).next fun _ => (yields_sees _).next fun _ => yields_ite ?_ ?_
  · exact hn.whole.next fun _ => hend l
  · exact hn.single.next fun _ => hend l

theorem yields_keyOrValue : Yields Lexeme.IsProper (keyOrValue c inner) fun t => Q t.members := by
  refine yields_skip.next fun _ => (yields_expect _).next fun _ => hn.whole.next
    fun t => yields_ite ?_ yields_fail_bind
  exact (yields_expect _).next fun _ => yields_pure hI.unknown

theorem yieldsAt_className {l : Lexeme} (hl : l.kind = .name) (hh : '-' ∉ l.text.toList)
    (he : hasEmptySegment l.text.toList = false) (hr : Words.isReserved l.text = false)
    (hp : l.IsProper) :
    YieldsAt Lexeme.IsProper l (className c inner) fun t => Q t.members := by
  refine (yieldsAt_take l).bind ?_
  intro k hk
  rw [hk]
  by_cases hb : l.text.toList.getLast? = some '\\'
  · rw [if_pos hb]
    exact yields_fail_bind
  · rw [if_neg hb]
    have hend : Yields Lexeme.IsProper (pure (classType c.scope l.text))
        fun t : DocType => Q t.members :=
      yields_pure (hI.name _ ⟨hp (Or.inl hl), hh, he, hr, hb⟩)
    exact (yields_sees _).next fun _ => yields_ite
      ((yields_arguments hn.whole _).next fun _ => hend) hend

/-- A basic type up to its suffix has the invariant if it starts with a lexeme of its kind. -/
theorem yieldsAt_stem {l : Lexeme} {k : Construct} (hk : construct? c.scope l = some k)
    (hp : l.IsProper) : YieldsAt Lexeme.IsProper l (stem c inner k) fun t => Q t.members := by
  have hconst : ∀ w ∈ constants, Yields Lexeme.IsProper (pure (.atom w))
      fun t : DocType => Q t.members := fun w hw => yields_pure (hI.constant w hw)
  cases k with
  | bool => exact (yields_word.next fun _ => hconst _ (by decide)).at l
  | int => exact (yields_int hI hn).at l
  | float => exact (yields_word.next fun _ => hconst _ (by decide)).at l
  | string => exact (yields_string hI hn).at l
  | array => exact (yields_array hI hn).at l
  | object =>
    refine (yields_skip.next fun _ => (yields_sees _).next fun _ => yields_ite ?_ ?_).at l
    · exact (yields_shape hn.whole _).next fun _ => hconst _ (by decide)
    · exact hconst _ (by decide)
  | never => exact (yields_word.next fun _ => hconst _ (by decide)).at l
  | plain =>
    refine (yieldsAt_take l).bind ?_
    intro j hj
    rw [hj]
    exact hconst _ (List.mem_append_right _ (mem_plain_of_construct? hk))
  | self =>
    refine (yields_skip.next fun _ => ?_).at l
    exact yields_pure hI.self
  | parent =>
    refine (yields_skip.next fun _ => ?_).at l
    exact yields_pure hI.parent
  | static => exact (yields_static hI).at l
  | callable => exact (yields_callable hI hn).at l
  | iterable =>
    refine (yields_skip.next fun _ => (yields_sees _).next fun _ => yields_ite ?_ ?_).at l
    · exact (yields_arguments hn.whole _).next fun _ => hconst _ (by decide)
    · exact hconst _ (by decide)
  | keyOrValue => exact (yields_keyOrValue hI hn).at l
  | className =>
    obtain ⟨hl, hh, he, hr⟩ := of_construct?_className hk
    exact yieldsAt_className hI hn hl hh he hr hp

end Stem

section Basic
variable (hI : Invariant c Q W) (hn : NestedYields inner Q W)
include hI hn

theorem yields_basic : Yields Lexeme.IsProper (basic c inner) fun t => Q t.members := by
  refine yields_next?_bind yields_fail fun l hl => ?_
  rw [Option.bind_some]
  cases hk : construct? c.scope l with
  | none => exact yields_fail.at l
  | some k =>
    refine (yieldsAt_stem hI.toStemInvariant hn hk hl).bind fun t ht => ?_
    refine (yields_sees _).next fun _ => yields_ite ?_ (yields_pure ht)
    exact yields_skip.next fun _ => yields_constantName.next fun _ => yields_pure hI.unknown

omit hn in
theorem yields_bracketsTo {t : DocType} (ht : Q t.members) (bound : Nat) :
    Yields L (bracketsTo t bound) fun t => Q t.members := by
  induction bound generalizing t with
  | zero => exact yields_pure ht
  | succ bound ih =>
    refine (yields_sees _).next fun _ => (yields_seesAt _ _).next fun _ => yields_ite ?_ ?_
    · exact yields_skip.next fun _ => yields_skip.next fun _ =>
        ih (hI.constant "array" (by decide))
    · exact yields_pure ht

theorem yields_single : Yields Lexeme.IsProper (single c inner) fun t => Q t.members := by
  have hend : ∀ t : DocType, Q t.members → Yields Lexeme.IsProper
      (do bracketsTo t (← get).rest.length) fun t => Q t.members :=
    fun t ht => yields_get.next fun _ => yields_bracketsTo hI ht _
  refine (yields_sees _).next fun _ => yields_ite ?_ ?_
  · exact yields_skip.next fun _ => hn.bracketed.bind fun t ht => (yields_expect _).next
      fun _ => hend t (hI.whole t ht)
  · exact (yields_basic hI hn).bind hend

/-- What an intersection adds to a union has the invariant. -/
theorem yields_intersection : Yields Lexeme.IsProper (intersection c inner) Q := by
  refine (yields_items (yields_single hI hn) yields_joins).bind ?_
  rintro parts ⟨hne, hall⟩
  have hmeet : parts.any DocType.isUnion = false → _ := fun hu =>
    hI.meet parts hne fun t ht => ⟨hall t ht, by simpa using List.any_eq_false.mp hu t ht⟩
  split
  · next t _ => exact yields_pure (hall t (by simp))
  · exact yields_fail
  · next hu =>
    obtain ⟨hone, hmore⟩ := hmeet hu
    split
    · next a ha => exact yields_pure (hone a ha)
    · split
      · next m hm => exact yields_pure (hmore m hm)
      · exact yields_fail

omit hn in
theorem flatten_of_invariant {mss : List (List Member)} (hne : mss ≠ []) (hall : ∀ ms ∈ mss, Q ms) :
    Q mss.flatten := by
  induction mss with
  | nil => exact (hne rfl).elim
  | cons ms mss ih =>
    cases mss with
    | nil => simpa using hall ms (by simp)
    | cons ns mss =>
      rw [List.flatten_cons]
      exact hI.append _ _ (hall ms (by simp)) (ih (by simp) fun k hk => hall k (by simp_all))

theorem yields_whole : Yields Lexeme.IsProper (whole c inner) W := by
  refine (yields_sees _).next fun _ => yields_ite ?_ ?_
  · refine yields_skip.next fun _ => (yields_single hI hn).bind fun t ht => yields_pure ?_
    exact hI.union _ (hI.append _ _ ht (hI.constant "null" (by decide)))
  · refine (yields_items (yields_intersection hI hn) (yields_sees _)).bind fun mss h => ?_
    exact yields_pure (hI.union _ (flatten_of_invariant hI h.1 h.2))

theorem yields_bracketed : Yields Lexeme.IsProper (bracketed c inner) W := by
  refine yields_next?.next fun _ => (yields_seesAt _ _).next fun _ => yields_ite ?_ ?_
  · refine yields_skip.next fun _ => yields_skip.next fun _ => hn.whole.next fun _ =>
      (yields_expect _).next fun _ => hn.whole.bind fun t ht => (yields_expect _).next
      fun _ => hn.whole.bind fun u hu => yields_pure ?_
    exact hI.union _ (hI.append _ _ (hI.whole t ht) (hI.whole u hu))
  · exact yields_whole hI hn

end Basic

/-- Readers of expressions of any depth yield types with the invariant. -/
theorem nestedYields (hI : Invariant c Q W) (depth : Nat) : NestedYields (nested c depth) Q W := by
  induction depth with
  | zero => exact ⟨yields_fail, yields_fail, yields_fail, yields_fail⟩
  | succ depth ih =>
    exact ⟨yields_whole hI ih, yields_bracketed hI ih, yields_single hI ih, yields_basic hI ih⟩

/-- Every type that is read has the invariant. -/
theorem yields_type (hI : Invariant c Q W) : Yields Lexeme.IsProper (type c) W :=
  yields_get.next fun _ => (nestedYields hI _).whole

end Grammar
end PhpDoc
