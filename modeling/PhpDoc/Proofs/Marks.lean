import PhpDoc.Proofs.Pieces
/-!
The marks of tokens. A bracket group joins an opener with a later closer of its sort, and no two
groups cross; the parameter list and the body of a declaration come after its keyword.
-/
namespace PhpDoc
namespace Group

structure Joins (kind? : Nat → Option Kind) (g : Group) : Prop where
  lt : g.opener < g.closer
  kinds : ∃ k k', kind? g.opener = some k ∧ kind? g.closer = some k' ∧ k.closer? = some k'

structure Before (g g' : Group) : Prop where
  closer_lt : g.closer < g'.closer
  apart : g'.opener < g.opener ∨ g.closer < g'.opener

def Follow (kind? : Nat → Option Kind) (i : Nat) (ks : List Kind) : Prop :=
  ∀ j, kind? (i + j) = ks[j]?

theorem Follow.head {kind? : Nat → Option Kind} {i : Nat} {k : Kind} {ks : List Kind}
    (h : Follow kind? i (k :: ks)) : kind? i = some k := by
  simpa using h 0

theorem Follow.tail {kind? : Nat → Option Kind} {i : Nat} {k : Kind} {ks : List Kind}
    (h : Follow kind? i (k :: ks)) : Follow kind? (i + 1) ks := by
  intro j
  simpa [Nat.add_assoc, Nat.add_comm 1] using h (j + 1)

/-- Brackets that are still open at an index, the latest first. -/
structure Open (kind? : Nat → Option Kind) (i : Nat) (stack : List (Nat × Kind)) : Prop where
  sorted : stack.Pairwise fun a b => b.1 < a.1
  below : ∀ o ∈ stack, o.1 < i ∧ kind? o.1 = some o.2

namespace Open
variable {kind? : Nat → Option Kind} {i : Nat} {stack : List (Nat × Kind)}

theorem nil : Open kind? i [] :=
  ⟨.nil, by simp⟩

theorem later (h : Open kind? i stack) : Open kind? (i + 1) stack :=
  ⟨h.sorted, fun o ho => ⟨Nat.lt_succ_of_lt (h.below o ho).1, (h.below o ho).2⟩⟩

theorem push {k : Kind} (h : Open kind? i stack) (hk : kind? i = some k) :
    Open kind? (i + 1) ((i, k) :: stack) where
  sorted := List.pairwise_cons.mpr ⟨fun o ho => (h.below o ho).1, h.sorted⟩
  below := by
    simp only [List.mem_cons, forall_eq_or_imp]
    exact ⟨⟨Nat.lt_succ_self i, hk⟩, h.later.below⟩

theorem suffix {rest : List (Nat × Kind)} (h : Open kind? i stack) (hr : rest <:+ stack) :
    Open kind? i rest :=
  ⟨h.sorted.sublist hr.sublist, fun o ho => h.below o (hr.subset ho)⟩

end Open

/-- The opener that a closer goes with is of its sort and still open. -/
theorem of_dropWhile_eq_cons {stack below : List (Nat × Kind)} {o : Nat × Kind} {k : Kind}
    (h : (stack.dropWhile fun o => o.2.closer? != some k) = o :: below) :
    o.2.closer? = some k ∧ (o :: below) <:+ stack := by
  constructor
  · have := List.head_dropWhile_not (fun o : Nat × Kind => o.2.closer? != some k) (l := stack)
      (by rw [h]; simp)
    simpa [h] using this
  · exact h ▸ List.dropWhile_suffix _

section
variable {kind? : Nat → Option Kind} {i : Nat} {stack : List (Nat × Kind)} {ks : List Kind}

/-- Every group joins two tokens, its closer is among the kinds looked at, and its opener is there
as well or on the stack. -/
theorem of_mem_matchFrom (hk : Follow kind? i ks) (hs : Open kind? i stack) {g : Group}
    (hg : g ∈ matchFrom i stack ks) :
    g.Joins kind? ∧ i ≤ g.closer ∧ (i ≤ g.opener ∨ g.opener ∈ stack.map (·.1)) := by
  fun_induction matchFrom i stack ks with
  | case1 => simp at hg
  | case2 i stack k ks hopen ih =>
    obtain ⟨hj, hc, ho⟩ := ih hk.tail (hs.push hk.head) hg
    refine ⟨hj, by omega, ?_⟩
    rcases ho with ho | ho
    · exact .inl (by omega)
    · rcases List.mem_cons.mp ho with ho | ho
      · exact .inl (Nat.le_of_eq ho.symm)
      · exact .inr ho
  | case3 i stack k ks hopen hclose hdrop ih =>
    obtain ⟨hj, hc, ho⟩ := ih hk.tail hs.later hg
    exact ⟨hj, by omega, ho.imp_left (by omega)⟩
  | case4 i stack k ks hopen hclose o below hdrop ih =>
    obtain ⟨hsort, hsuffix⟩ := of_dropWhile_eq_cons hdrop
    have hsub := (hsuffix.map (·.1)).subset
    rcases List.mem_cons.mp hg with rfl | hg
    · have hbelow := hs.below o (hsuffix.subset List.mem_cons_self)
      exact ⟨⟨hbelow.1, o.2, k, hbelow.2, hk.head, hsort⟩, Nat.le_refl i,
        .inr (hsub List.mem_cons_self)⟩
    · obtain ⟨hj, hc, ho⟩ := ih hk.tail
        (hs.suffix ((List.suffix_cons o below).trans hsuffix)).later hg
      exact ⟨hj, by omega, ho.imp (by omega) fun h => hsub (List.mem_cons_of_mem o.1 h)⟩
  | case5 i stack k ks hopen hclose ih =>
    obtain ⟨hj, hc, ho⟩ := ih hk.tail hs.later hg
    exact ⟨hj, by omega, ho.imp_left (by omega)⟩

/-- The groups come in the order of their closers, and no two of them cross. -/
theorem pairwise_matchFrom (hk : Follow kind? i ks) (hs : Open kind? i stack) :
    (matchFrom i stack ks).Pairwise Before := by
  fun_induction matchFrom i stack ks with
  | case1 => exact .nil
  | case2 i stack k ks hopen ih => exact ih hk.tail (hs.push hk.head)
  | case3 i stack k ks hopen hclose hdrop ih => exact ih hk.tail hs.later
  | case4 i stack k ks hopen hclose o below hdrop ih =>
    have hs' := hs.suffix (of_dropWhile_eq_cons hdrop).2
    have hbelow := (hs'.suffix (List.suffix_cons o below)).later
    refine List.pairwise_cons.mpr ⟨fun g hg => ?_, ih hk.tail hbelow⟩
    -- what is still open was opened before, and what opens from here on does so after the closer
    obtain ⟨-, hc, ho⟩ := of_mem_matchFrom hk.tail hbelow hg
    refine ⟨hc, ho.symm.imp_left fun h => ?_⟩
    obtain ⟨o', ho', h⟩ := List.mem_map.mp h
    exact h ▸ (List.pairwise_cons.mp hs'.sorted).1 o' ho'
  | case5 i stack k ks hopen hclose ih => exact ih hk.tail hs.later

end

theorem of_getElem?_foldl {groups : List Group} {i : Nat} {g : Group} {a : Array (Option Group)}
    (ha : a[i]? ≠ some (some g))
    (h : (groups.foldl
      (fun a g => (a.setIfInBounds g.opener (some g)).setIfInBounds g.closer (some g))
      a)[i]? = some (some g)) :
    g ∈ groups ∧ (i = g.opener ∨ i = g.closer) := by
  induction groups generalizing a with
  | nil => exact absurd h ha
  | cons first groups ih =>
    by_cases hfirst : first = g ∧ (i = g.opener ∨ i = g.closer)
    · exact ⟨hfirst.1 ▸ List.mem_cons_self, hfirst.2⟩
    · have hset : ((a.setIfInBounds first.opener (some first)).setIfInBounds first.closer
          (some first))[i]? ≠ some (some g) := by
        simp only [Array.getElem?_setIfInBounds]
        grind
      exact (ih hset h).imp_left (List.mem_cons_of_mem first)

/-- The group noted at an index opens or closes there. -/
theorem of_getElem?_atIndexes {count : Nat} {groups : List Group} {i : Nat} {g : Group}
    (h : (atIndexes count groups)[i]? = some (some g)) :
    g ∈ groups ∧ (i = g.opener ∨ i = g.closer) :=
  of_getElem?_foldl (by simp [Array.getElem?_replicate]) h

end Group
namespace Tokens

structure Grouped (ts : Tokens) : Prop where
  joins : ∀ i g, ts.group? i = some g → g.Joins ts.kind? ∧ (i = g.opener ∨ i = g.closer)
  apart : ∀ i j g g', ts.group? i = some g → ts.group? j = some g' →
    g = g' ∨ g.Before g' ∨ g'.Before g

structure OpensFrom (ts : Tokens) (i : Nat) (k : Kind) (g : Group) : Prop where
  le : i ≤ g.opener
  group : ts.group? g.opener = some g
  kind : ts.kind? g.opener = some k

structure Marked (ts : Tokens) : Prop extends Grouped ts where
  parameters : ∀ i g, ts[i]?.bind (·.parameters) = some g → OpensFrom ts (i + 1) .openParen g
  body : ∀ i g, ts[i]?.bind (·.body) = some g → OpensFrom ts (i + 1) .openBrace g

theorem closer?_closer? {k k' : Kind} (h : k.closer? = some k') : k'.closer? = none := by
  cases k <;> cases h <;> rfl

section
variable {ts : Tokens} {i j : Nat} {g : Group}

/-- The group of an opening bracket opens there. -/
theorem Grouped.opener_eq {k : Kind} (h : ts.Grouped) (hg : ts.group? i = some g)
    (hk : ts.kind? i = some k) (hopen : k.closer?.isSome) : i = g.opener := by
  obtain ⟨hj, rfl | rfl⟩ := h.joins i g hg
  · rfl
  · obtain ⟨k₁, k₂, -, hk₂, hc⟩ := hj.kinds
    rw [hk] at hk₂
    cases hk₂
    rw [closer?_closer? hc] at hopen
    cases hopen

theorem parameterOpener_spec (h : ts.parameterOpener i = some j) :
    i ≤ j ∧ ts.kind? j = some .openParen := by
  fun_induction parameterOpener ts i with
  | case1 i hi hk =>
    cases h
    exact ⟨Nat.le_refl j, by simp [kind?, hi, hk]⟩
  | case2 | case3 | case5 => cases h
  | case4 i hi _ _ _ ih => exact (ih h).imp_left (by omega)

theorem bodyOpener_spec (h : ts.bodyOpener i = some j) :
    i ≤ j ∧ ts.kind? j = some .openBrace := by
  fun_induction bodyOpener ts i with
  | case1 i hi hk =>
    cases h
    exact ⟨Nat.le_refl j, by simp [kind?, hi, hk]⟩
  | case2 | case3 | case4 | case6 => cases h
  | case5 i hi _ _ _ _ ih =>
    have := lt_past i ts[i].group
    exact (ih h).imp_left (by omega)

theorem Grouped.parameterList_spec (h : ts.Grouped) (hp : ts.parameterList i = some g) :
    OpensFrom ts (i + 1) .openParen g := by
  obtain ⟨j, hj, hg⟩ := Option.bind_eq_some_iff.mp hp
  obtain ⟨hle, hk⟩ := parameterOpener_spec hj
  obtain rfl := h.opener_eq hg hk rfl
  exact ⟨hle, hg, hk⟩

theorem Grouped.bodyFrom_spec (h : ts.Grouped) (hb : ts.bodyFrom i = some g) :
    OpensFrom ts i .openBrace g := by
  obtain ⟨j, hj, hg⟩ := Option.bind_eq_some_iff.mp hb
  obtain ⟨hle, hk⟩ := bodyOpener_spec hj
  obtain rfl := h.opener_eq hg hk rfl
  exact ⟨hle, hg, hk⟩

/-- A keyword without marks gets the parameter list and the body that come after it. -/
theorem Grouped.declare_spec {t : Token} (h : ts.Grouped) (ht : t.parameters = none)
    (hb : t.body = none) :
    (∀ g, (ts.declare i t).parameters = some g → OpensFrom ts (i + 1) .openParen g) ∧
      ∀ g, (ts.declare i t).body = some g → OpensFrom ts (i + 1) .openBrace g := by
  have hafter : ∀ p g, ts.parameterList i = some p → ts.bodyFrom (p.closer + 1) = some g →
      OpensFrom ts (i + 1) .openBrace g := by
    intro p g hp hg
    have hlist := h.parameterList_spec hp
    have hbody := h.bodyFrom_spec hg
    have := (h.joins _ _ hlist.group).1.lt
    have := hlist.le
    have := hbody.le
    exact ⟨by omega, hbody.group, hbody.kind⟩
  unfold declare
  split
  · split
    · rename_i p hp
      exact ⟨fun g hg => h.parameterList_spec (hp.trans hg), fun g hg => hafter p g hp hg⟩
    · simp [ht, hb]
  · split
    · rename_i p hp
      exact ⟨fun g hg => h.parameterList_spec (hp.trans hg), fun g hg => hafter p g hp hg⟩
    · simp [ht, hb]
  · exact ⟨fun g hg => h.parameterList_spec hg, by simp [hb]⟩
  · split
    · rename_i p hp
      exact ⟨fun g hg => h.parameterList_spec (hp.trans hg), fun g hg => hafter p g hp hg⟩
    · exact ⟨by simp [ht], fun g hg => h.bodyFrom_spec hg⟩
  all_goals first
    | exact ⟨by simp [ht], fun g hg => h.bodyFrom_spec hg⟩
    | simp [ht, hb]

end

theorem getElem?_withExtents (ts : Tokens) (i : Nat) :
    ts.withExtents[i]? = ts[i]?.map fun t =>
      if t.kind = .docOpen then { t with commentEnd := ts.commentEnd (i + 1) }
      else ts.declare i t := by
  simp [withExtents]

theorem kind?_withExtents (ts : Tokens) : ts.withExtents.kind? = ts.kind? := by
  funext i
  rw [kind?, kind?, getElem?_withExtents, Option.map_map]
  congr 1
  funext t
  obtain ⟨_, _, h⟩ := declare_eq ts i t
  simp only [Function.comp_apply]
  split <;> simp [h]

theorem group?_withExtents (ts : Tokens) : ts.withExtents.group? = ts.group? := by
  funext i
  rw [group?, group?, getElem?_withExtents, Option.bind_map]
  congr 1
  funext t
  obtain ⟨_, _, h⟩ := declare_eq ts i t
  simp only [Function.comp_apply]
  split <;> simp [h]

structure IsUnmarked (t : Token) : Prop where
  parameters : t.parameters = none
  body : t.body = none
  commentEnd : t.commentEnd = none

theorem Grouped.withExtents {ts : Tokens} (h : ts.Grouped) (hplain : ∀ t ∈ ts, IsUnmarked t) :
    ts.withExtents.Marked := by
  have hopens : ∀ i k g, OpensFrom ts i k g → OpensFrom ts.withExtents i k g :=
    fun i k g ho => ⟨ho.le, group?_withExtents ts ▸ ho.group, kind?_withExtents ts ▸ ho.kind⟩
  have hdeclared : ∀ i t', ts.withExtents[i]? = some t' →
      (∀ g, t'.parameters = some g → OpensFrom ts (i + 1) .openParen g) ∧
        ∀ g, t'.body = some g → OpensFrom ts (i + 1) .openBrace g := by
    intro i t' ht'
    rw [getElem?_withExtents] at ht'
    obtain ⟨t, ht, rfl⟩ := Option.map_eq_some_iff.mp ht'
    obtain ⟨hp, hb, -⟩ := hplain t (Array.mem_of_getElem? ht)
    split
    · simp [hp, hb]
    · exact h.declare_spec hp hb
  refine ⟨⟨?_, ?_⟩, fun i g hg => ?_, fun i g hg => ?_⟩
  · rw [group?_withExtents, kind?_withExtents]
    exact h.joins
  · rw [group?_withExtents]
    exact h.apart
  · obtain ⟨t, ht, hg⟩ := Option.bind_eq_some_iff.mp hg
    exact hopens _ _ _ ((hdeclared i t ht).1 g hg)
  · obtain ⟨t, ht, hg⟩ := Option.bind_eq_some_iff.mp hg
    exact hopens _ _ _ ((hdeclared i t ht).2 g hg)

theorem kind?_withGroups (ts : Tokens) : ts.withGroups.kind? = ts.kind? := by
  funext i
  simp [kind?, withGroups, Function.comp_def]

theorem follow_kinds (ts : Tokens) : Group.Follow ts.kind? 0 (ts.toList.map (·.kind)) := by
  intro j
  simp [kind?]

/-- The group of a token is one of those of the kinds, and opens or closes there. -/
theorem mem_all_of_group? {ts : Tokens} {i : Nat} {g : Group}
    (hg : ts.withGroups.group? i = some g) :
    g ∈ Group.all (ts.toList.map (·.kind)) ∧ (i = g.opener ∨ i = g.closer) := by
  obtain ⟨t, ht, hg⟩ := Option.bind_eq_some_iff.mp hg
  rw [withGroups, Array.getElem?_mapIdx] at ht
  obtain ⟨u, -, rfl⟩ := Option.map_eq_some_iff.mp ht
  exact Group.of_getElem?_atIndexes (Option.join_eq_some_iff.mp hg)

theorem withGroups_grouped (ts : Tokens) : ts.withGroups.Grouped := by
  constructor
  · intro i g hg
    obtain ⟨hall, hi⟩ := mem_all_of_group? hg
    rw [kind?_withGroups]
    exact ⟨(Group.of_mem_matchFrom ts.follow_kinds .nil hall).1, hi⟩
  · intro i j g g' hg hg'
    have hpair := Group.pairwise_matchFrom ts.follow_kinds .nil
    exact List.Pairwise.forall_of_forall_of_flip
      (R := fun g g' => g = g' ∨ g.Before g' ∨ g'.Before g)
      (fun _ _ => .inl rfl) (hpair.imp fun h => .inr (.inl h)) (hpair.imp fun h => .inr (.inr h))
      (mem_all_of_group? hg).1 (mem_all_of_group? hg').1

theorem toTokens_unmarked (p : Piece.Place) (ps : List Piece) :
    ∀ t ∈ Piece.toTokens p ps, IsUnmarked t := by
  fun_induction Piece.toTokens p ps with
  | case1 => simp
  | case2 p x xs ih => exact List.forall_mem_cons.mpr ⟨⟨rfl, rfl, rfl⟩, ih⟩

theorem withGroups_unmarked (p : Piece.Place) (ps : List Piece) :
    ∀ t ∈ withGroups (Piece.toTokens p ps).toArray, IsUnmarked t := by
  intro t ht
  obtain ⟨i, hi, rfl⟩ := Array.mem_mapIdx.mp ht
  have hplain := toTokens_unmarked p ps _ (List.getElem_mem hi)
  exact ⟨hplain.parameters, hplain.body, hplain.commentEnd⟩

end Tokens

/-- The tokens of a source text are marked. -/
theorem tokenize_marked (source : String) : (tokenize source).Marked :=
  (Tokens.withGroups_grouped _).withExtents (Tokens.withGroups_unmarked _ _)

end PhpDoc
