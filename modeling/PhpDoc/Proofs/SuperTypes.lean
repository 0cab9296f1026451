import PhpDoc.Type.Fits
import Mathlib.Logic.Relation
import Mathlib.Tactic.Common
/-!
What the walk over the class table finds. The supertypes of a class are `object` and the names that
its parents lead to; a late-bound class has besides them the class that it is bound to.
-/
namespace PhpDoc

-- conditions on the characters of a text are decided along the text, not over all characters

instance decidableForallMemChars {p : Char → Prop} [DecidablePred p] (cs : List Char) :
    Decidable (∀ c ∈ cs, p c) :=
  List.decidableBAll p cs

instance decidableForallMemChar? {p : Char → Prop} [DecidablePred p] (o : Option Char) :
    Decidable (∀ c ∈ o, p c) :=
  Option.decidableForallMem o

instance decidableExistsMemChar? {p : Char → Prop} [DecidablePred p] (o : Option Char) :
    Decidable (∃ c ∈ o, p c) :=
  Option.decidableExistsMem o

def IsAbsolute (name : String) : Prop :=
  Text.beginsWith "\\" name = true

instance (name : String) : Decidable (IsAbsolute name) :=
  inferInstanceAs (Decidable (_ = true))

def lateBound (name : String) : String :=
  "static(" ++ name ++ ")"

inductive IsAtom : String → Prop
  | word (w : String) (h : ∀ c ∈ w.toList, c ≠ '\\' ∧ c ≠ '(' ∧ c ≠ ')') : IsAtom w
  | name (n : String) (h : IsAbsolute n) : IsAtom n
  | late (n : String) (h : IsAbsolute n) : IsAtom (lateBound n)

theorem isAbsolute_iff {name : String} : IsAbsolute name ↔ ∃ cs, name.toList = '\\' :: cs := by
  have hb : ("\\" : String).toList = ['\\'] := by decide
  unfold IsAbsolute Text.beginsWith
  rw [hb]
  cases name.toList with
  | nil => simp
  | cons c cs =>
    have hc : ('\\' == c) = true ↔ c = '\\' := by rw [beq_iff_eq, eq_comm]
    simp [List.isPrefixOf, ← hc]

theorem IsAbsolute.append {a : String} (ha : IsAbsolute a) {s : String} : IsAbsolute (a ++ s) := by
  obtain ⟨cs, hcs⟩ := isAbsolute_iff.mp ha
  exact isAbsolute_iff.mpr ⟨cs ++ s.toList, by simp [hcs]⟩

theorem IsAbsolute.not_late {a : String} (ha : IsAbsolute a) :
    Text.beginsWith "static(" a = false := by
  obtain ⟨cs, hcs⟩ := isAbsolute_iff.mp ha
  have hword : ("static(" : String).toList = ['s', 't', 'a', 't', 'i', 'c', '('] := by decide
  simp [Text.beginsWith, hword, hcs, List.isPrefixOf]

theorem toList_lateBound (n : String) :
    (lateBound n).toList = ['s', 't', 'a', 't', 'i', 'c', '('] ++ n.toList ++ [')'] := by
  have h₁ : ("static(" : String).toList = ['s', 't', 'a', 't', 'i', 'c', '('] := by decide
  have h₂ : (")" : String).toList = [')'] := by decide
  rw [lateBound, String.toList_append, String.toList_append, h₁, h₂]

namespace Hierarchy

def listed (rows : List (String × List String)) (name : String) : List String :=
  (rows.lookup name).getD []

/-- What a walk has visited when it ends: everything queued and whatever that leads to, except for
names seen before. -/
structure Visited (rows : List (String × List String)) (queue seen V : List String) : Prop where
  queued : ∀ n ∈ queue, n ∈ seen ∨ n ∈ V
  fresh : ∀ n ∈ V, n ∉ seen
  reached : ∀ n ∈ V, ∃ q ∈ queue, Relation.ReflTransGen (fun a b => b ∈ listed rows a) q n
  closed : ∀ n ∈ V, ∀ p ∈ listed rows n, p ∈ seen ∨ p ∈ V

section Walk
variable {rows : List (String × List String)} {beyond : String → List String}
  {queue seen supers V : List String} {name x : String}

theorem mem_adjoin : x ∈ adjoin supers name ↔ x ∈ supers ∨ x = name := by
  unfold adjoin
  split
  · next h =>
    have hm : name ∈ supers := by simpa using h
    exact ⟨Or.inl, fun hx => hx.elim id (fun he => he ▸ hm)⟩
  · simp

theorem mem_foldl_adjoin {names : List String} :
    x ∈ names.foldl adjoin supers ↔ x ∈ supers ∨ x ∈ names := by
  induction names generalizing supers with
  | nil => simp
  | cons n names ih => rw [List.foldl_cons, ih, mem_adjoin, List.mem_cons, or_assoc]

theorem Visited.skip (h : Visited rows queue seen V) (hs : name ∈ seen) :
    Visited rows (name :: queue) seen V := by
  refine ⟨?_, h.fresh, ?_, h.closed⟩
  · intro n hn
    rcases List.mem_cons.mp hn with rfl | hn
    · exact Or.inl hs
    · exact h.queued n hn
  · intro n hn
    obtain ⟨q, hq, hp⟩ := h.reached n hn
    exact ⟨q, List.mem_cons_of_mem _ hq, hp⟩

/-- A name seen for the first time is visited, and so is what its parents lead to. -/
theorem Visited.cons (h : Visited rows (queue ++ listed rows name) (name :: seen) V)
    (hs : name ∉ seen) : Visited rows (name :: queue) seen (name :: V) := by
  refine ⟨?_, ?_, ?_, ?_⟩
  · intro n hn
    rcases List.mem_cons.mp hn with rfl | hn
    · simp
    · have hq := h.queued n (List.mem_append_left _ hn)
      simpa [or_assoc, or_left_comm] using hq
  · intro n hn
    rcases List.mem_cons.mp hn with rfl | hn
    · exact hs
    · exact fun hm => h.fresh n hn (List.mem_cons_of_mem _ hm)
  · intro n hn
    rcases List.mem_cons.mp hn with rfl | hn
    · exact ⟨n, by simp, .refl⟩
    · obtain ⟨q, hq, hp⟩ := h.reached n hn
      rcases List.mem_append.mp hq with hq | hq
      · exact ⟨q, List.mem_cons_of_mem _ hq, hp⟩
      · exact ⟨name, by simp, .head hq hp⟩
  · intro n hn p hp
    rcases List.mem_cons.mp hn with rfl | hn
    · have hq := h.queued p (List.mem_append_right _ hp)
      simpa [or_assoc, or_left_comm] using hq
    · have hc := h.closed n hn p hp
      simpa [or_assoc, or_left_comm] using hc

end Walk

/-- A walk adds the names that it visits and what lies beyond those that the table does not list. -/
theorem mem_walk (rows : List (String × List String)) (beyond : String → List String)
    (queue seen supers : List String) :
    ∃ V, Visited rows queue seen V ∧ ∀ x, x ∈ walk rows beyond queue seen supers ↔
      x ∈ supers ∨ x ∈ V ∨ ∃ n ∈ V, rows.lookup n = none ∧ x ∈ beyond n := by
  fun_induction walk rows beyond queue seen supers with
  | case1 => exact ⟨[], ⟨by simp, by simp, by simp, by simp⟩, by simp⟩
  | case2 name queue seen supers hs ih =>
    obtain ⟨V, hV, hx⟩ := ih
    exact ⟨V, hV.skip hs, hx⟩
  | case3 name queue seen supers hs parents hl ih =>
    obtain ⟨V, hV, hx⟩ := ih
    have hp : listed rows name = parents := by simp [listed, hl]
    refine ⟨name :: V, Visited.cons (hp ▸ hV) hs, ?_⟩
    intro x
    rw [hx, mem_adjoin]
    simp only [List.mem_cons, exists_eq_or_imp, hl, reduceCtorEq, false_and, false_or]
    tauto
  | case4 name queue seen supers hs hl ih =>
    obtain ⟨V, hV, hx⟩ := ih
    have hp : listed rows name = [] := by simp [listed, hl]
    refine ⟨name :: V, Visited.cons (by simpa [hp] using hV) hs, ?_⟩
    intro x
    rw [hx, mem_foldl_adjoin, mem_adjoin]
    simp only [List.mem_cons, exists_eq_or_imp, hl, true_and]
    tauto

/-- A hierarchy whose names are all absolute. -/
def Absolute (h : Hierarchy) : Prop :=
  ∀ r ∈ h, IsAbsolute r.1 ∧ ∀ p ∈ r.2.parents, IsAbsolute p

def Ancestor (h : Hierarchy) : String → String → Prop :=
  Relation.TransGen fun a b => b ∈ listed h.rows a

theorem library_absolute : ∀ r ∈ Library.rows, IsAbsolute r.1 ∧
    ∀ p ∈ r.2, IsAbsolute p ∨ p = "iterable" ∨ p = "callable" := by
  unfold IsAbsolute
  decide +kernel

theorem wordParents_open : ∀ r ∈ wordParents, '\\' ∉ r.1.toList ∧ '(' ∉ r.1.toList := by
  decide

variable {h : Hierarchy} {a b name x : String}

theorem wordParents_lookup_eq_none (hc : '\\' ∈ name.toList ∨ '(' ∈ name.toList) :
    wordParents.lookup name = none := by
  cases hl : wordParents.lookup name with
  | none => rfl
  | some ps =>
    obtain ⟨h₁, h₂⟩ := wordParents_open (name, ps) (mem_of_lookup hl)
    exact (hc.elim h₁ h₂).elim

theorem lookup_wordParents_of_isAbsolute (hn : IsAbsolute name) :
    wordParents.lookup name = none := by
  obtain ⟨cs, hcs⟩ := isAbsolute_iff.mp hn
  exact wordParents_lookup_eq_none (.inl (by simp [hcs]))

/-- Names lead to absolute names, or out of the classes to `iterable` and `callable`. -/
theorem Absolute.of_listed (ha : h.Absolute) (hp : x ∈ listed h.rows name) :
    IsAbsolute name ∧ (IsAbsolute x ∨ x = "iterable" ∨ x = "callable") := by
  unfold listed at hp
  cases hl : h.rows.lookup name with
  | none => simp [hl] at hp
  | some ps =>
    have hx : x ∈ ps := by simpa [hl] using hp
    rcases List.mem_append.mp (mem_of_lookup hl) with hm | hm
    · obtain ⟨hn, hps⟩ := library_absolute _ hm
      exact ⟨hn, hps x hx⟩
    · obtain ⟨r, hr, he⟩ := List.mem_map.mp hm
      obtain ⟨hn, hps⟩ := ha r hr
      cases he
      exact ⟨hn, Or.inl (hps x hx)⟩

theorem superTypesTo_word (rows : List (String × List String)) (depth : Nat)
    (hs : Text.beginsWith "static(" a = false) (hb : ¬IsAbsolute a) :
    superTypesTo rows (depth + 1) a = (wordParents.lookup a).getD [] := by
  have hb' : Text.beginsWith "\\" a = false := by simpa [IsAbsolute] using hb
  rw [superTypesTo]
  cases wordParents.lookup a with
  | none => simp [hs, hb']
  | some ps => rfl

theorem superTypesTo_name (rows : List (String × List String)) (depth : Nat) (hb : IsAbsolute a) :
    superTypesTo rows (depth + 1) a =
      walk rows (superTypesTo rows depth) (listed rows a) [a] ["object"] := by
  rw [superTypesTo, lookup_wordParents_of_isAbsolute hb]
  simp only [hb.not_late, Bool.false_eq_true, if_false]
  exact if_pos hb

theorem superTypesTo_late (rows : List (String × List String)) (depth : Nat) :
    superTypesTo rows (depth + 1) (lateBound a) =
      walk rows (superTypesTo rows depth) (listed rows a) [a]
        (adjoin ["static", "self", "parent", "object"] a) := by
  have hn : Text.slice (lateBound a) 7 ((lateBound a).length - 1) = a := by
    have hl : (lateBound a).length = a.toList.length + 8 := by
      rw [← String.length_toList, toList_lateBound]
      simp
    rw [Text.slice, hl, toList_lateBound]
    simp
  have hs : Text.beginsWith "static(" (lateBound a) = true := by
    have h₁ : ("static(" : String).toList = ['s', 't', 'a', 't', 'i', 'c', '('] := by decide
    simp [Text.beginsWith, h₁, toList_lateBound, List.isPrefixOf]
  rw [superTypesTo, wordParents_lookup_eq_none (by simp [toList_lateBound])]
  simp only [hs, if_true, hn]
  rfl

/-- Behind an ancestor that the table does not list there is at most `object`. -/
theorem Absolute.beyond_ancestor (ha : h.Absolute) (depth : Nat) (hb : h.Ancestor b name)
    (hl : h.rows.lookup name = none) (hx : x ∈ superTypesTo h.rows (depth + 1) name) :
    x = "object" := by
  obtain ⟨p, -, hp⟩ := Relation.TransGen.tail'_iff.mp hb
  rcases (ha.of_listed hp).2 with hn | rfl | rfl
  · have hlist : listed h.rows name = [] := by simp [listed, hl]
    rw [superTypesTo_name _ _ hn, hlist, walk] at hx
    simpa using hx
  · rw [superTypesTo_word _ _ (by decide) (by decide)] at hx
    simp [wordParents, List.lookup_cons] at hx
  · rw [superTypesTo_word _ _ (by decide) (by decide)] at hx
    simp [wordParents, List.lookup_cons] at hx

/-- A walk from the parents of a name finds the ancestors of the name, except for itself. -/
theorem Absolute.mem_walk_parents (ha : h.Absolute) (depth : Nat) {supers : List String}
    (ho : "object" ∈ supers) :
    x ∈ walk h.rows (superTypesTo h.rows (depth + 1)) (listed h.rows b) [b] supers ↔
      x ∈ supers ∨ (x ≠ b ∧ h.Ancestor b x) := by
  obtain ⟨V, hV, hx⟩ := mem_walk h.rows (superTypesTo h.rows (depth + 1)) (listed h.rows b) [b] supers
  have hup : ∀ n ∈ V, h.Ancestor b n := by
    intro n hn
    obtain ⟨q, hq, hp⟩ := hV.reached n hn
    exact .head' hq hp
  have hdown : ∀ n, h.Ancestor b n → n = b ∨ n ∈ V := by
    intro n hn
    induction hn with
    | single hp => simpa using hV.queued _ hp
    | tail _ hp ih =>
      rcases ih with rfl | hm
      · simpa using hV.queued _ hp
      · simpa using hV.closed _ hm _ hp
  rw [hx]
  constructor
  · rintro (hs | hv | ⟨n, hn, hl, hm⟩)
    · exact Or.inl hs
    · exact Or.inr ⟨by simpa using hV.fresh x hv, hup x hv⟩
    · exact Or.inl (ha.beyond_ancestor depth (hup n hn) hl hm ▸ ho)
  · rintro (hs | ⟨hne, hanc⟩)
    · exact Or.inl hs
    · exact Or.inr (Or.inl ((hdown x hanc).resolve_left hne))

theorem superTypes_word (hs : Text.beginsWith "static(" a = false) (hb : ¬IsAbsolute a) :
    h.superTypes a = (wordParents.lookup a).getD [] :=
  superTypesTo_word _ _ hs hb

/-- The supertypes of a class are `object` and its ancestors, itself excepted. -/
theorem Absolute.mem_superTypes_name (ha : h.Absolute) (hb : IsAbsolute b) :
    x ∈ h.superTypes b ↔ x = "object" ∨ (x ≠ b ∧ h.Ancestor b x) := by
  rw [superTypes, superTypesTo_name _ _ hb, ha.mem_walk_parents _ (by simp), List.mem_singleton]

/-- The supertypes of a late-bound class are those of `static`, the class and its ancestors. -/
theorem Absolute.mem_superTypes_late (ha : h.Absolute) :
    x ∈ h.superTypes (lateBound b) ↔
      x ∈ ["static", "self", "parent", "object"] ∨ x = b ∨ h.Ancestor b x := by
  rw [superTypes, superTypesTo_late, ha.mem_walk_parents _ (by simp [mem_adjoin]), mem_adjoin,
    or_assoc]
  by_cases hx : x = b <;> simp [hx]

end Hierarchy
end PhpDoc
