import PhpDoc.Proofs.SuperTypes
import PhpDoc.Type.Lattice
/-!
What a lattice remembers is what its hierarchy says. A question gets the same answer whatever has
been asked before, and everything that is noted while it is answered is right.
-/
namespace PhpDoc

namespace Hierarchy
variable {h : Hierarchy} {a n : String}

structure IsLeaf (h : Hierarchy) (n : String) : Prop where
  unlisted : h.rows.lookup n = none
  form : IsAbsolute n ∨ n = "iterable" ∨ n = "callable"

/-- The supertypes of a leaf do not depend on how deep they are looked for. -/
theorem IsLeaf.superTypesTo_eq (hn : h.IsLeaf n) (depth : Nat) :
    superTypesTo h.rows (depth + 1) n = if IsAbsolute n then ["object"] else [] := by
  rcases hn.form with hb | rfl | rfl
  · have hlist : listed h.rows n = [] := by simp [listed, hn.unlisted]
    rw [superTypesTo_name _ _ hb, hlist, walk, if_pos hb]
  · rw [superTypesTo_word _ _ (by decide) (by decide)]
    decide
  · rw [superTypesTo_word _ _ (by decide) (by decide)]
    decide

theorem IsLeaf.superTypes_eq (hn : h.IsLeaf n) :
    h.superTypes n = if IsAbsolute n then ["object"] else [] :=
  hn.superTypesTo_eq _

end Hierarchy

namespace Lattice
open Hierarchy

/-- A lattice over a hierarchy all of whose notes are what the hierarchy says. -/
structure Coherent (h : Hierarchy) (l : Lattice) : Prop where
  hierarchy : l.hierarchy = h
  known : ∀ base supers, l.known.get? base = some supers → supers = h.superTypes base

def Answers {α : Type} (h : Hierarchy) (query : Query α) (a : α) : Prop :=
  ∀ l, Coherent h l → ∃ l', query l = (a, l') ∧ Coherent h l'

variable {α β : Type} {h : Hierarchy} {query : Query α} {a : α} {b : β} {base : String}

theorem coherent_new (h : Hierarchy) : Coherent h { hierarchy := h } :=
  ⟨rfl, nofun⟩

theorem answers_pure (a : α) : Answers h (pure a) a :=
  fun l hl => ⟨l, rfl, hl⟩

theorem Answers.bind {f : α → Query β} (hq : Answers h query a) (hf : Answers h (f a) b) :
    Answers h (query >>= f) b := by
  intro l hl
  obtain ⟨l', heq, hl'⟩ := hq l hl
  obtain ⟨l'', heq', hl''⟩ := hf l' hl'
  have hbind : (query >>= f) l = f (query l).1 (query l).2 := rfl
  exact ⟨l'', by rw [hbind, heq, heq'], hl''⟩

/-- The hierarchy can be looked at. -/
theorem Answers.hierarchy {f : Hierarchy → Query β} (hf : Answers h (f h) b) :
    Answers h (do f (← get).hierarchy) b := by
  intro l hl
  obtain ⟨l', heq, hl'⟩ := hf l hl
  exact ⟨l', by rw [← heq, ← hl.hierarchy]; rfl, hl'⟩

theorem remember_eq (base : String) (compute : Query (List String)) (l : Lattice) :
    remember base compute l = match l.known.get? base with
      | some supers => (supers, l)
      | none =>
        let (supers, l') := compute l
        (supers, { l' with known := l'.known.bind base supers }) := by
  change (match l.known.get? base with
    | some supers => pure supers
    | none => _ : Query (List String)) l = _
  cases l.known.get? base <;> rfl

/-- What is remembered is right, and so is what is computed and noted. -/
theorem answers_remember {compute : Query (List String)}
    (hc : Answers h compute (h.superTypes base)) :
    Answers h (remember base compute) (h.superTypes base) := by
  intro l hl
  rw [remember_eq]
  cases hk : l.known.get? base with
  | some supers => exact ⟨l, by rw [hl.known base supers hk], hl⟩
  | none =>
    obtain ⟨l', heq, hl'⟩ := hc l hl
    rw [heq]
    refine ⟨_, rfl, hl'.hierarchy, fun other supers hother => ?_⟩
    by_cases hne : other = base
    · rw [hne, Bindings.get?_bind_self] at hother
      rw [hne, ← Option.some.inj hother]
    · rw [Bindings.get?_bind_of_ne _ _ hne] at hother
      exact hl'.known other supers hother

/-- A walk asks for the supertypes of leaves only. -/
theorem answers_walk (ha : h.Absolute) {beyond : String → Query (List String)} {depth : Nat}
    (hbeyond : ∀ n, h.IsLeaf n → Answers h (beyond n) (h.superTypes n))
    {queue seen supers : List String}
    (hqueue : ∀ n ∈ queue, IsAbsolute n ∨ n = "iterable" ∨ n = "callable") :
    Answers h (walk h.rows beyond queue seen supers)
      (Hierarchy.walk h.rows (Hierarchy.superTypesTo h.rows (depth + 1)) queue seen supers) := by
  fun_induction Hierarchy.walk h.rows (Hierarchy.superTypesTo h.rows (depth + 1))
    queue seen supers with
  | case1 seen supers =>
    rw [walk]
    exact answers_pure _
  | case2 name queue seen supers hs ih =>
    rw [walk, dif_pos hs]
    exact ih fun n hn => hqueue n (List.mem_cons_of_mem _ hn)
  | case3 name queue seen supers hs parents hl ih =>
    rw [walk, dif_neg hs]
    split
    · next parents' hl' =>
      obtain rfl := Option.some.inj (hl.symm.trans hl')
      refine ih fun n hn => (List.mem_append.mp hn).elim
        (fun hn => hqueue n (List.mem_cons_of_mem _ hn)) fun hn => ?_
      exact (ha.of_listed (by rwa [listed, hl])).2
    · next hl' => cases hl.symm.trans hl'
  | case4 name queue seen supers hs hl ih =>
    rw [walk, dif_neg hs]
    split
    · next parents hl' => cases hl.symm.trans hl'
    · have hleaf : h.IsLeaf name := ⟨hl, hqueue name List.mem_cons_self⟩
      refine (hbeyond name hleaf).bind ?_
      rw [hleaf.superTypes_eq, ← hleaf.superTypesTo_eq depth]
      exact ih fun n hn => hqueue n (List.mem_cons_of_mem _ hn)

theorem answers_compute (ha : h.Absolute) {beyond : String → Query (List String)}
    (hbeyond : ∀ n, h.IsLeaf n → Answers h (beyond n) (h.superTypes n)) :
    Answers h (compute h.rows beyond base) (h.superTypes base) := by
  have hparents : ∀ name, ∀ n ∈ (h.rows.lookup name).getD [],
      IsAbsolute n ∨ n = "iterable" ∨ n = "callable" := fun _ _ hn => (ha.of_listed hn).2
  unfold compute Hierarchy.superTypes Hierarchy.superTypesTo
  cases wordParents.lookup base with
  | some supers => exact answers_pure supers
  | none =>
    dsimp only
    split
    · exact answers_walk ha hbeyond (hparents _)
    · split
      · exact answers_walk ha hbeyond (hparents _)
      · exact answers_pure []

/-- The supertypes of a leaf are told without asking for others. -/
theorem compute_leaf (hn : h.IsLeaf base) (beyond : String → Query (List String)) :
    compute h.rows beyond base = pure (h.superTypes base) := by
  rw [hn.superTypes_eq]
  rcases hn.form with hb | rfl | rfl
  · have habsolute : Text.beginsWith "\\" base = true := hb
    simp [compute, lookup_wordParents_of_isAbsolute hb, hb.not_late, habsolute, hn.unlisted, walk,
      hb]
  · rfl
  · rfl

/-- Every atom has the supertypes that the hierarchy gives it. -/
theorem answers_superTypes (ha : h.Absolute) (base : String) :
    Answers h (superTypes base) (h.superTypes base) := by
  have hleaf : ∀ depth n, h.IsLeaf n → Answers h (superTypesTo (depth + 1) n) (h.superTypes n) := by
    intro depth n hn
    refine Answers.hierarchy (f := fun h =>
      remember n (compute h.rows (superTypesTo depth) n)) (answers_remember ?_)
    rw [compute_leaf hn]
    exact answers_pure _
  refine Answers.hierarchy
    (f := fun h => superTypesTo ((h.flatMap fun r => r.2.parents).length + 2) base) ?_
  exact Answers.hierarchy (f := fun h => remember base (compute h.rows (superTypesTo _) base))
    (answers_remember (answers_compute ha (hleaf _)))

theorem Answers.map {f : α → β} (hq : Answers h query a) :
    Answers h (do return f (← query)) (f a) :=
  hq.bind (answers_pure _)

theorem answers_ite {c : Prop} [Decidable c] {query' : Query α} {a' : α} (hq : Answers h query a)
    (hq' : Answers h query' a') :
    Answers h (if c then query else query') (if c then a else a') := by
  split
  · exact hq
  · exact hq'

/-- The second question is not asked if the first one is answered by yes. -/
theorem answers_or {query query' : Query Bool} {b b' : Bool} (hq : Answers h query b)
    (hq' : Answers h query' b') : Answers h (query <||> query') (b || b') := by
  refine hq.bind ?_
  cases b
  · exact hq'
  · exact answers_pure true

variable (ha : h.Absolute)
include ha

theorem answers_closure (m : Member) : Answers h (closure m) (h.closure m) := by
  have hall : ∀ m : List String, Answers h (m.mapM superTypes) (m.map h.superTypes) := by
    intro m
    induction m with
    | nil => exact answers_pure []
    | cons a m ih =>
      rw [List.mapM_cons]
      exact (answers_superTypes ha a).bind ih.map
  rw [Hierarchy.closure, List.flatMap_def]
  exact (hall m).map

theorem answers_covers (wide : List Member) (narrow : Member) :
    Answers h (covers wide narrow) (h.covers wide narrow) :=
  (answers_closure ha narrow).map

theorem answers_fits (wide narrow : DocType) :
    Answers h (fits wide narrow) (h.fits wide narrow) := by
  have hall : ∀ ms : List Member, Answers h (ms.allM (covers (widen wide.members)))
      (ms.all (h.covers (widen wide.members))) := by
    intro ms
    induction ms with
    | nil => exact answers_pure true
    | cons m ms ih =>
      refine (answers_covers ha _ m).bind ?_
      rw [List.all_cons]
      cases h.covers (widen wide.members) m
      · exact answers_pure false
      · exact ih
  have hfits : h.fits wide narrow = if wide == .mixed || narrow == .never then true
      else narrow.members.all (h.covers (widen wide.members)) := by
    rw [Hierarchy.fits]
    cases wide == .mixed || narrow == .never <;> rfl
  rw [hfits]
  exact answers_ite (answers_pure true) (hall _)

theorem answers_fits? (wide narrow : Option DocType) :
    Answers h (fits? wide narrow) (h.fits? wide narrow) := by
  match wide, narrow with
  | none, none | some _, none => exact answers_pure false
  | none, some _ => exact answers_pure true
  | some wide, some narrow => exact answers_fits ha wide narrow

theorem answers_isObjectLike (name : String) :
    Answers h (isObjectLike name) (h.isObjectLike name) := by
  have hlike : h.isObjectLike name = if ["object", "iterable", "callable"].contains name then true
      else (h.superTypes name).contains "object" := by
    rw [Hierarchy.isObjectLike]
    cases ["object", "iterable", "callable"].contains name <;> rfl
  rw [hlike]
  exact answers_ite (answers_pure true) (answers_superTypes ha name).map

theorem answers_tidyAtoms (atoms : List String) :
    Answers h (tidyAtoms atoms atoms) (h.tidyAtoms atoms) := by
  have hall : ∀ atoms kept : List String, Answers h (tidyAtoms atoms kept)
      (atoms.foldlM (fun kept a => if h.isObjectLike a then
        some (kept.filter fun k => !(h.superTypes a).contains k) else none) kept) := by
    intro atoms
    induction atoms with
    | nil => exact fun kept => answers_pure (some kept)
    | cons a atoms ih =>
      intro kept
      refine (answers_isObjectLike ha a).bind ?_
      rw [List.foldlM_cons]
      cases h.isObjectLike a
      · exact answers_pure none
      · exact (answers_superTypes ha a).bind (ih _)
  exact hall atoms atoms

theorem answers_intersection (atoms : List String) :
    Answers h (intersection atoms) (h.intersection atoms) := by
  unfold intersection Hierarchy.intersection
  refine answers_ite (answers_pure _) ?_
  generalize atoms.filter (· ≠ "mixed") = rest
  match rest with
  | [] => exact answers_pure (some ["mixed"])
  | [a] => exact answers_pure (some [a])
  | a :: b :: rest => exact (answers_tidyAtoms ha (a :: b :: rest)).map

omit ha in
theorem answers_filterM {p : α → Query Bool} {P : α → Bool} (hp : ∀ a, Answers h (p a) (P a))
    (l : List α) : Answers h (l.filterM p) (l.filter P) := by
  have hall : ∀ kept, Answers h (l.filterAuxM p kept) ((l.filter P).reverse ++ kept) := by
    induction l with
    | nil => exact fun kept => answers_pure kept
    | cons a l ih =>
      intro kept
      refine (hp a).bind ?_
      rw [List.filter_cons]
      cases P a
      · exact ih kept
      · simpa using ih (a :: kept)
  have hkept : ((l.filter P).reverse ++ []).reverse = l.filter P := by simp
  exact hkept ▸ (hall []).map

theorem answers_dropNarrower (rest kept : List Member) :
    Answers h (dropNarrower rest kept) (h.dropNarrower rest kept) := by
  induction rest generalizing kept with
  | nil => exact answers_pure kept
  | cons wide rest ih =>
    refine answers_ite ((answers_filterM (fun m => ?_) kept).bind (ih _)) (ih kept)
    cases m == wide
    · exact (answers_fits ha _ _).map
    · exact answers_pure true

theorem answers_union (members : List Member) : Answers h (union members) (h.union members) := by
  unfold union Hierarchy.union
  generalize Member.arrange members = ms
  match ms with
  | [m] => exact answers_pure (DocType.mk [m])
  | [] => exact answers_pure (DocType.mk [])
  | m :: n :: ms => exact answers_ite (answers_pure _) (answers_dropNarrower ha _ _).map

end Lattice
end PhpDoc
