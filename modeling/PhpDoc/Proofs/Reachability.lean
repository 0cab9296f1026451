import PhpDoc.Proofs.Closure
/-!
The supertypes of a class are the names that it reaches. A step leads from a class to a direct
supertype, by the library or by its declaration; the supertypes are computed in the end, also where
classes inherit from each other, and each of them is listed once.
-/
namespace PhpDoc
namespace Hierarchy
variable {rows : List (String × List String)} {h : Hierarchy} {a b base name x : String}

def parents (h : Hierarchy) (name : String) : List String :=
  match Library.rows.lookup name with
  | some supers => supers
  | none => ((h.get? name).map ClassEntry.parents).getD []

/-- A name is reached from another one by one or more parent steps. -/
def Reaches (h : Hierarchy) : String → String → Prop :=
  Relation.TransGen fun a b => b ∈ h.parents a

theorem lookup_map_parents (h : Hierarchy) (name : String) :
    (h.map fun (n, e) => (n, e.parents)).lookup name = (h.get? name).map ClassEntry.parents := by
  induction h with
  | nil => rfl
  | cons r h ih =>
    obtain ⟨n, e⟩ := r
    rw [List.map_cons, Bindings.get?, List.lookup_cons, List.lookup_cons]
    cases name == n with
    | true => rfl
    | false => exact ih

theorem listed_rows (h : Hierarchy) (name : String) : listed h.rows name = h.parents name := by
  rw [listed, rows, List.lookup_append, lookup_map_parents, parents]
  cases Library.rows.lookup name <;> rfl

theorem ancestor_iff : h.Ancestor b x ↔ h.Reaches b x := by
  simp only [Ancestor, Reaches, listed_rows]

mutual

/-- The supertypes of a name are computed in the end, however often those of another name are asked
for on the way. -/
inductive Computes (rows : List (String × List String)) : String → List String → Prop
  | word {base : String} {supers : List String} (hw : wordParents.lookup base = some supers) :
    Computes rows base supers
  | late {base : String} {supers : List String} (hw : wordParents.lookup base = none)
    (hs : Text.beginsWith "static(" base = true)
    (visits : Visits rows (listed rows (Text.slice base 7 (base.length - 1)))
      [Text.slice base 7 (base.length - 1)]
      (adjoin ["static", "self", "parent", "object"] (Text.slice base 7 (base.length - 1)))
      supers) : Computes rows base supers
  | name {base : String} {supers : List String} (hw : wordParents.lookup base = none)
    (hs : Text.beginsWith "static(" base = false) (hb : IsAbsolute base)
    (visits : Visits rows (listed rows base) [base] ["object"] supers) : Computes rows base supers
  | other {base : String} (hw : wordParents.lookup base = none)
    (hs : Text.beginsWith "static(" base = false) (hb : ¬IsAbsolute base) : Computes rows base []

inductive Visits (rows : List (String × List String)) :
    List String → List String → List String → List String → Prop
  | done {seen supers : List String} : Visits rows [] seen supers supers
  | again {name : String} {queue seen supers last : List String} (hs : name ∈ seen)
    (rest : Visits rows queue seen supers last) : Visits rows (name :: queue) seen supers last
  | listed {name : String} {parents queue seen supers last : List String} (hs : name ∉ seen)
    (hl : rows.lookup name = some parents)
    (rest : Visits rows (queue ++ parents) (name :: seen) (adjoin supers name) last) :
    Visits rows (name :: queue) seen supers last
  | beyond {name : String} {more queue seen supers last : List String} (hs : name ∉ seen)
    (hl : rows.lookup name = none) (asked : Computes rows name more)
    (rest : Visits rows queue (name :: seen) (more.foldl adjoin (adjoin supers name)) last) :
    Visits rows (name :: queue) seen supers last

end

/-- There is one answer at most. -/
theorem Computes.unique {supers supers' : List String} (h : Computes rows base supers)
    (h' : Computes rows base supers') : supers = supers' := by
  revert supers'
  refine @Computes.rec rows (fun base supers _ => ∀ {l}, Computes rows base l → supers = l)
    (fun queue seen supers last _ => ∀ {l}, Visits rows queue seen supers l → last = l)
    ?word ?late ?name ?other ?done ?again ?listed ?beyond base supers h
  case word =>
    intro base supers hw l h'
    cases h' <;> simp_all
  case late =>
    intro base supers hw hs visits ih l h'
    cases h' with
    | late _ _ visits' => exact ih visits'
    | word | name | other => simp_all
  case name =>
    intro base supers hw hs hb visits ih l h'
    cases h' with
    | name _ _ _ visits' => exact ih visits'
    | word | late | other => simp_all
  case other =>
    intro base hw hs hb l h'
    cases h' <;> simp_all
  case done =>
    intro seen supers l h'
    cases h'
    rfl
  case again =>
    intro name queue seen supers last hs rest ih l h'
    cases h' with
    | again _ rest' => exact ih rest'
    | listed hs' | beyond hs' => exact absurd hs hs'
  case listed =>
    intro name parents queue seen supers last hs hl rest ih l h'
    cases h' with
    | again hs' => exact absurd hs' hs
    | listed _ hl' rest' =>
      cases hl.symm.trans hl'
      exact ih rest'
    | beyond _ hl' => simp [hl] at hl'
  case beyond =>
    intro name more queue seen supers last hs hl asked rest ihasked ihrest l h'
    cases h' with
    | again hs' => exact absurd hs' hs
    | listed _ hl' => simp [hl] at hl'
    | beyond _ _ asked' rest' =>
      obtain rfl := ihasked asked'
      exact ihrest rest'

/-- A walk visits the names in its queue, if what lies beyond the table is computed. -/
theorem visits_walk (beyond : String → List String) (queue seen supers : List String)
    (hb : ∀ q ∈ queue, ∀ n, Relation.ReflTransGen (fun a b => b ∈ listed rows a) q n →
      rows.lookup n = none → Computes rows n (beyond n)) :
    Visits rows queue seen supers (walk rows beyond queue seen supers) := by
  fun_induction walk rows beyond queue seen supers with
  | case1 => exact .done
  | case2 name queue seen supers hs ih => exact .again hs (ih fun q hq => hb q (.tail name hq))
  | case3 name queue seen supers hs parents hl ih =>
    refine .listed hs hl (ih fun q hq n hn => ?_)
    rcases List.mem_append.mp hq with hq | hq
    · exact hb q (.tail name hq) n hn
    · exact hb name List.mem_cons_self n (.head (by simpa [listed, hl] using hq) hn)
  | case4 name queue seen supers hs hl ih =>
    exact .beyond hs hl (hb name List.mem_cons_self name .refl hl)
      (ih fun q hq => hb q (.tail name hq))

/-- What lies beyond the table is computed at once. -/
theorem Absolute.computes_beyond (ha : h.Absolute) (depth : Nat) (hup : h.Ancestor base name)
    (hl : h.rows.lookup name = none) :
    Computes h.rows name (superTypesTo h.rows (depth + 1) name) := by
  obtain ⟨p, -, hp⟩ := Relation.TransGen.tail'_iff.mp hup
  rcases (ha.of_listed hp).2 with hn | rfl | rfl
  · have hlist : listed h.rows name = [] := by simp [listed, hl]
    refine .name (lookup_wordParents_of_isAbsolute hn) hn.not_late hn ?_
    rw [superTypesTo_name _ _ hn, hlist, walk]
    exact .done
  · rw [superTypesTo_word _ _ (by decide) (by decide)]
    exact .other (by decide) (by decide) (by decide)
  · rw [superTypesTo_word _ _ (by decide) (by decide)]
    exact .other (by decide) (by decide) (by decide)

/-- The supertypes of every name are computed in the end. -/
theorem Absolute.computes_iff (ha : h.Absolute) (base : String) (supers : List String) :
    Computes h.rows base supers ↔ supers = h.superTypes base := by
  have hwalk : ∀ (depth : Nat) (name : String) (start : List String),
      Visits h.rows (listed h.rows name) [name] start
        (walk h.rows (superTypesTo h.rows (depth + 1)) (listed h.rows name) [name] start) :=
    fun depth name start => visits_walk _ _ _ _ fun q hq n hn hl =>
      ha.computes_beyond depth (.head' hq hn) hl
  have hends : Computes h.rows base (h.superTypes base) := by
    rw [superTypes, superTypesTo]
    split
    · next supers hw => exact .word hw
    · next hw =>
      split
      · next hs => exact .late hw hs (hwalk _ _ _)
      · next hs =>
        have hs : Text.beginsWith "static(" base = false := by simpa using hs
        split
        · next hn => exact .name hw hs hn (hwalk _ _ _)
        · next hn => exact .other hw hs hn
  exact ⟨fun h => h.unique hends, fun h => h ▸ hends⟩

theorem nodup_adjoin {supers : List String} (hs : supers.Nodup) (name : String) :
    (adjoin supers name).Nodup := by
  unfold adjoin
  split
  · exact hs
  · next hc =>
    have hn : name ∉ supers := by simpa using hc
    exact List.nodup_append.mpr ⟨hs, List.pairwise_singleton _ name, fun x hx y hy hxy =>
      hn (List.mem_singleton.mp hy ▸ hxy ▸ hx)⟩

theorem nodup_foldl_adjoin {supers : List String} (hs : supers.Nodup) (names : List String) :
    (names.foldl adjoin supers).Nodup := by
  induction names generalizing supers with
  | nil => exact hs
  | cons n names ih => exact ih (nodup_adjoin hs n)

theorem nodup_walk (beyond : String → List String) (queue seen supers : List String)
    (hs : supers.Nodup) : (walk rows beyond queue seen supers).Nodup := by
  fun_induction walk rows beyond queue seen supers with
  | case1 => exact hs
  | case2 name queue seen supers hseen ih => exact ih hs
  | case3 name queue seen supers hseen parents hl ih => exact ih (nodup_adjoin hs name)
  | case4 name queue seen supers hseen hl ih =>
    exact ih (nodup_foldl_adjoin (nodup_adjoin hs name) _)

theorem wordParents_nodup : ∀ r ∈ wordParents, r.2.Nodup := by
  decide +kernel

/-- No supertype is listed twice. -/
theorem nodup_superTypes (h : Hierarchy) (a : String) : (h.superTypes a).Nodup := by
  rw [superTypes, superTypesTo]
  split
  · next supers hl =>
    exact wordParents_nodup (a, supers) (mem_of_lookup hl)
  · split
    · exact nodup_walk _ _ _ _ (nodup_adjoin (by decide) _)
    · split
      · exact nodup_walk _ _ _ _ (List.pairwise_singleton _ _)
      · exact List.nodup_nil

/-- The supertypes are computed in the end. Those of a class are `object` and the other names that
it reaches, those of a late-bound class the class and its supertypes besides those of `static`; each
is listed once, and the supertypes of a supertype are among them. -/
theorem Absolute.superTypes_reaches (ha : h.Absolute) (hb : IsAbsolute b) :
    (∀ base supers, Computes h.rows base supers ↔ supers = h.superTypes base) ∧
      (h.superTypes b).Nodup ∧
      (∀ x, x ∈ h.superTypes b ↔ x = "object" ∨ (x ≠ b ∧ h.Reaches b x)) ∧
      (h.superTypes (lateBound b)).Nodup ∧
      (∀ x, x ∈ h.superTypes (lateBound b) ↔
        x ∈ ["static", "self", "parent"] ∨ x = b ∨ x ∈ h.superTypes b) ∧
      ∀ a, IsAtom a → ∀ s ∈ h.superTypes a, ∀ x ∈ h.superTypes s, x = a ∨ x ∈ h.superTypes a := by
  refine ⟨ha.computes_iff, nodup_superTypes h b, fun x => ?_, nodup_superTypes h _, fun x => ?_,
    fun a hat s hs x hx => ha.has_trans hat (.inr hs) (.inr hx)⟩
  · rw [ha.mem_superTypes_name hb, ancestor_iff]
  · rw [ha.mem_superTypes_late, ha.mem_superTypes_name hb]
    simp only [List.mem_cons, List.not_mem_nil, or_false]
    tauto

def entangled : Hierarchy := [
  ("\\A", ⟨some "\\B", ["\\Iterator"]⟩),
  ("\\B", ⟨some "\\A", ["\\Gone"]⟩)]

theorem superTypes_reaches_entangled :
    entangled.Absolute ∧ IsAbsolute "\\A" ∧
      entangled.superTypes "\\A" =
        ["object", "\\B", "\\Iterator", "\\Gone", "\\Traversable", "iterable"] ∧
      entangled.Reaches "\\A" "iterable" := by
  have ha : entangled.Absolute := by
    unfold Absolute IsAbsolute
    decide
  have hn : IsAbsolute "\\A" := by decide
  have hl : entangled.superTypes "\\A" =
      ["object", "\\B", "\\Iterator", "\\Gone", "\\Traversable", "iterable"] := by decide +kernel
  have hx : "iterable" ∈ entangled.superTypes "\\A" := by simp [hl]
  have hreach := ((ha.superTypes_reaches hn).2.2.1 "iterable").mp hx
  exact ⟨ha, hn, hl, (hreach.resolve_left (by decide)).2⟩

end Hierarchy
end PhpDoc
