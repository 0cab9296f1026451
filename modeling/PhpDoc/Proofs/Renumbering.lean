import PhpDoc.Proofs.TagLines
/-!
Files whose tokens are numbered anew. Where tokens of the bodies of tags are left out or have other
texts, the tokens after them move up; whatever is found by going over the tokens from a place on is
found in the other file at the place that corresponds.
-/
namespace PhpDoc

def Group.renumber (f : Nat → Nat) (g : Group) : Group :=
  ⟨f g.opener, f g.closer⟩

structure Token.Becomes (f : Nat → Nat) (t t' : Token) : Prop where
  kind : t'.kind = t.kind
  text : t.kind ≠ .docText → t'.text = t.text
  group : t'.group = t.group.map (·.renumber f)
  parameters : t'.parameters = t.parameters.map (·.renumber f)
  body : t'.body = t.body.map (·.renumber f)
  commentEnd : t'.commentEnd = t.commentEnd.map f

theorem Kind.isTrivia_of_isBody {k : Kind} (h : k.isBody = true) : k.isTrivia = true := by
  revert h
  cases k <;> decide

namespace Tokens

/-- A token that is left out at a place: it belongs to the body of a tag, and nothing begins or ends
there. -/
structure IsLeftOut (f : Nat → Nat) (i : Nat) (t : Token) : Prop where
  body : t.kind.isBody = true
  group : t.group = none
  parameters : t.parameters = none
  succ : f (i + 1) = f i

abbrev Numbered (ts ts' : Tokens) (f : Nat → Nat) : Prop :=
  ∀ (i : Nat) (hi : i < ts.size), IsLeftOut f i ts[i] ∨
    (f (i + 1) = f i + 1 ∧ ∃ hi' : f i < ts'.size, ts[i].Becomes f ts'[f i])

/-- The tokens of a file stand in another one, where `f` gives their numbers, but for some in the
bodies of tags. -/
structure Renumbers (ts ts' : Tokens) (f : Nat → Nat) : Prop where
  zero : f 0 = 0
  step : Numbered ts ts' f
  past : ∀ i, ts.size ≤ i → f i = ts'.size + (i - ts.size)
  marks : ∀ (i : Nat) (hi : i < ts.size) (g : Group),
    ts[i].group = some g ∨ ts[i].parameters = some g ∨ ts[i].body = some g →
      f (g.opener + 1) = f g.opener + 1 ∧ f (g.closer + 1) = f g.closer + 1

namespace Renumbers
variable {ts ts' : Tokens} {f : Nat → Nat} {i j : Nat} {t : Token} {g : Group}

theorem size (h : ts.Renumbers ts' f) : f ts.size = ts'.size := by
  simpa using h.past ts.size (Nat.le_refl _)

theorem succ_of_size_le (h : ts.Renumbers ts' f) (hi : ts.size ≤ i) : f (i + 1) = f i + 1 := by
  rw [h.past i hi, h.past (i + 1) (by omega)]
  omega

theorem le_succ (h : ts.Renumbers ts' f) (i : Nat) : f i ≤ f (i + 1) := by
  rcases Nat.lt_or_ge i ts.size with hi | hi
  · rcases h.step i hi with hout | ⟨hsucc, -⟩
    · exact Nat.le_of_eq hout.succ.symm
    · omega
  · exact Nat.le_of_lt (Nat.lt_of_lt_of_eq (Nat.lt_succ_self _) (h.succ_of_size_le hi).symm)

theorem mono (h : ts.Renumbers ts' f) (hij : i ≤ j) : f i ≤ f j := by
  induction hij with
  | refl => exact Nat.le_refl _
  | step _ ih => exact Nat.le_trans ih (h.le_succ _)

theorem le_self (h : ts.Renumbers ts' f) (i : Nat) : f i ≤ i := by
  have hsucc : ∀ i, f (i + 1) ≤ f i + 1 := by
    intro i
    rcases Nat.lt_or_ge i ts.size with hi | hi
    · rcases h.step i hi with hout | ⟨hsucc, -⟩
      · exact Nat.le_succ_of_le (Nat.le_of_eq hout.succ)
      · exact Nat.le_of_eq hsucc
    · exact Nat.le_of_eq (h.succ_of_size_le hi)
  induction i with
  | zero => exact Nat.le_of_eq h.zero
  | succ i ih =>
    have := hsucc i
    omega

/-- A token that is not left out comes before another place exactly if its number does. -/
theorem lt_iff (h : ts.Renumbers ts' f) (hi : f (i + 1) = f i + 1) : f i < f j ↔ i < j := by
  constructor
  · intro hlt
    refine Nat.lt_of_not_le fun hle => ?_
    exact absurd (h.mono hle) (Nat.not_le_of_lt hlt)
  · intro hlt
    have : f (i + 1) ≤ f j := h.mono hlt
    omega

theorem le_iff (h : ts.Renumbers ts' f) (hj : f (j + 1) = f j + 1) : f i ≤ f j ↔ i ≤ j := by
  rw [← Nat.not_lt, h.lt_iff hj, Nat.not_lt]

/-- A token outside of the bodies of tags is not left out. -/
theorem kept (h : ts.Renumbers ts' f) (hi : i < ts.size) (hk : ts[i].kind.isBody = false) :
    f (i + 1) = f i + 1 ∧ ∃ hi' : f i < ts'.size, ts[i].Becomes f ts'[f i] := by
  refine (h.step i hi).resolve_left fun hout => ?_
  rw [hout.body] at hk
  cases hk

theorem size_le (h : ts.Renumbers ts' f) (hi : ts.size ≤ i) : ts'.size ≤ f i := by
  rw [h.past i hi]
  omega

theorem lt_size_iff (h : ts.Renumbers ts' f) (hi : f (i + 1) = f i + 1) :
    f i < ts'.size ↔ i < ts.size := by
  rw [← h.size, h.lt_iff hi]

theorem isBody_of_not_isDoc {k : Kind} (h : ¬k.isDoc = true) : k.isBody = false := by
  revert h
  cases k <;> decide

theorem isBody_of_not_isTrivia {k : Kind} (h : ¬k.isTrivia = true) : k.isBody = false :=
  Bool.eq_false_iff.mpr fun hbody => h (Kind.isTrivia_of_isBody hbody)

theorem atOrAfter_eq (h : ts.Renumbers ts' f) (i : Nat) :
    ts'.atOrAfter (f i) = f (ts.atOrAfter i) := by
  fun_induction atOrAfter ts i with
  | case1 i hi htrivia ih =>
    rcases h.step i hi with hout | ⟨hsucc, hi', ht⟩
    · rw [← hout.succ, ih]
    · rw [atOrAfter, dif_pos hi', ht.kind, if_pos htrivia, ← hsucc, ih]
  | case2 i hi hmatters =>
    obtain ⟨-, hi', ht⟩ := h.kept hi (isBody_of_not_isTrivia hmatters)
    rw [atOrAfter, dif_pos hi', ht.kind, if_neg hmatters]
  | case3 i hi =>
    rw [atOrAfter, dif_neg (Nat.not_lt.mpr (h.size_le (Nat.le_of_not_lt hi)))]

/-- A place that does not fall together with the next one. -/
theorem succ_of_settled (h : ts.Renumbers ts' f) (hi : ts.Settled i) : f (i + 1) = f i + 1 := by
  rcases Nat.lt_or_ge i ts.size with hlt | hge
  · refine (h.kept hlt (isBody_of_not_isTrivia fun htrivia => ?_)).1
    have hhere := hi.here
    rw [atOrAfter, dif_pos hlt, if_pos htrivia] at hhere
    have := ts.le_atOrAfter (i + 1)
    omega
  · exact h.succ_of_size_le hge

theorem next_eq (h : ts.Renumbers ts' f) (hi : f (i + 1) = f i + 1) :
    ts'.next (f i) = f (ts.next i) := by
  rw [next, ← hi, h.atOrAfter_eq, next]

/-- What stands at a place stands at the other one. -/
theorem getElem?_eq (h : ts.Renumbers ts' f) (hi : f (i + 1) = f i + 1) :
    (ts[i]? = none ∧ ts'[f i]? = none) ∨
      ∃ t t', ts[i]? = some t ∧ ts'[f i]? = some t' ∧ t.Becomes f t' := by
  rcases Nat.lt_or_ge i ts.size with hlt | hge
  · rcases h.step i hlt with hout | ⟨-, hi', ht⟩
    · have := hout.succ
      omega
    · exact .inr ⟨_, _, Array.getElem?_eq_getElem hlt, Array.getElem?_eq_getElem hi', ht⟩
  · refine .inl ⟨by simpa using hge, ?_⟩
    simpa using h.size_le hge

theorem kind?_eq (h : ts.Renumbers ts' f) (hi : f (i + 1) = f i + 1) :
    ts'.kind? (f i) = ts.kind? i := by
  obtain ⟨hnone, hnone'⟩ | ⟨t, t', ht, ht', hbec⟩ := h.getElem?_eq hi
  · simp [kind?, hnone, hnone']
  · simp [kind?, ht, ht', hbec.kind]

theorem previous?_eq (h : ts.Renumbers ts' f) (hi : i ≤ ts.size) :
    (ts'.previous? (f i)).map (·.kind) = (ts.previous? i).map (·.kind) := by
  induction i with
  | zero => rw [h.zero]; rfl
  | succ i ih =>
    have hlt : i < ts.size := hi
    rcases h.step i hlt with hout | ⟨hsucc, hi', ht⟩
    · have htrivia := Kind.isTrivia_of_isBody hout.body
      simp only [hout.succ, previous?, Array.getElem?_eq_getElem hlt, htrivia, if_true]
      exact ih (Nat.le_of_lt hlt)
    · simp only [hsucc, previous?, Array.getElem?_eq_getElem hlt, Array.getElem?_eq_getElem hi',
        ht.kind]
      split
      · exact ih (Nat.le_of_lt hlt)
      · simp [ht.kind]

theorem succ_of_kind? (h : ts.Renumbers ts' f) {k : Kind} (hk : ts.kind? i = some k)
    (hbody : k.isBody = false) : f (i + 1) = f i + 1 := by
  obtain ⟨t, ht, rfl⟩ := Option.map_eq_some_iff.mp hk
  obtain ⟨hi, rfl⟩ := Array.getElem?_eq_some_iff.mp ht
  exact (h.kept hi hbody).1

theorem past_eq (h : ts.Renumbers ts' f) (hi : f (i + 1) = f i + 1) {o : Option Group}
    (ho : ∀ g ∈ o, f (g.closer + 1) = f g.closer + 1) :
    Tokens.past (f i) (o.map (·.renumber f)) = f (Tokens.past i o) := by
  cases o with
  | none => exact hi.symm
  | some g =>
    simp only [Tokens.past, Option.map_some, Group.renumber, h.lt_iff hi]
    split
    · exact (ho g rfl).symm
    · exact hi.symm

theorem group?_eq (h : ts.Renumbers ts' f) (hi : f (i + 1) = f i + 1) :
    ts'.group? (f i) = (ts.group? i).map (·.renumber f) := by
  obtain ⟨hnone, hnone'⟩ | ⟨t, t', ht, ht', hbec⟩ := h.getElem?_eq hi
  · simp [group?, hnone, hnone']
  · simp [group?, ht, ht', hbec.group]

theorem parameterOpener_eq (h : ts.Renumbers ts' f) (i : Nat) :
    ts'.parameterOpener (f i) = (ts.parameterOpener i).map f := by
  fun_induction parameterOpener ts i with
  | case1 i hi hk | case2 i hi hk | case3 i hi hk =>
    obtain ⟨-, hi', ht⟩ := h.kept hi (by rw [hk]; rfl)
    rw [parameterOpener, dif_pos hi']
    simp [ht.kind, hk]
  | case4 i hi hparen hsemi hbrace ih =>
    rcases h.step i hi with hout | ⟨hsucc, hi', ht⟩
    · rw [← hout.succ, ih]
    · rw [parameterOpener, dif_pos hi', ← ih, hsucc, ht.kind]
      split <;> first | contradiction | rfl
  | case5 i hi =>
    rw [parameterOpener, dif_neg (Nat.not_lt.mpr (h.size_le (Nat.le_of_not_lt hi)))]
    rfl

theorem past_of_isLeftOut (hout : IsLeftOut f i t) : f (Tokens.past i t.group) = f i := by
  rw [hout.group, Tokens.past, hout.succ]

theorem bodyOpener_eq (h : ts.Renumbers ts' f) (i : Nat) :
    ts'.bodyOpener (f i) = (ts.bodyOpener i).map f := by
  fun_induction bodyOpener ts i with
  | case1 i hi hk | case2 i hi hk | case3 i hi hk | case4 i hi hk =>
    obtain ⟨-, hi', ht⟩ := h.kept hi (by rw [hk]; rfl)
    rw [bodyOpener, dif_pos hi']
    simp [ht.kind, hk]
  | case5 i hi hopen hsemi hclose harrow ih =>
    rcases h.step i hi with hout | ⟨hsucc, hi', ht⟩
    · rw [← ih, past_of_isLeftOut hout]
    · have hpast := h.past_eq hsucc (o := ts[i].group) fun g hg => (h.marks i hi g (.inl hg)).2
      rw [bodyOpener, dif_pos hi', ht.group, hpast, ih, ht.kind]
      split <;> first | contradiction | rfl
  | case6 i hi =>
    rw [bodyOpener, dif_neg (Nat.not_lt.mpr (h.size_le (Nat.le_of_not_lt hi)))]
    rfl

theorem commentEnd_eq (h : ts.Renumbers ts' f) (i : Nat) :
    ts'.commentEnd (f i) = (ts.commentEnd i).map f := by
  fun_induction commentEnd ts i with
  | case1 i hi hk =>
    obtain ⟨-, hi', ht⟩ := h.kept hi (by rw [hk]; rfl)
    rw [commentEnd, dif_pos hi', ht.kind, if_pos hk]
    rfl
  | case2 i hi hk hdoc ih =>
    rcases h.step i hi with hout | ⟨hsucc, hi', ht⟩
    · rw [← hout.succ, ih]
    · rw [commentEnd, dif_pos hi', ht.kind, if_neg hk, if_pos hdoc, ← hsucc, ih]
  | case3 i hi hk hdoc =>
    obtain ⟨-, hi', ht⟩ := h.kept hi (isBody_of_not_isDoc hdoc)
    rw [commentEnd, dif_pos hi', ht.kind, if_neg hk, if_neg hdoc]
    rfl
  | case4 i hi =>
    rw [commentEnd, dif_neg (Nat.not_lt.mpr (h.size_le (Nat.le_of_not_lt hi)))]
    rfl

theorem parameterList_eq (h : ts.Renumbers ts' f) (hi : f (i + 1) = f i + 1) :
    ts'.parameterList (f i) = (ts.parameterList i).map (·.renumber f) := by
  rw [parameterList, ← hi, h.parameterOpener_eq, parameterList]
  cases ho : ts.parameterOpener (i + 1) with
  | none => rfl
  | some j => exact h.group?_eq (h.succ_of_kind? (parameterOpener_spec ho).2 rfl)

theorem bodyFrom_eq (h : ts.Renumbers ts' f) (i : Nat) :
    ts'.bodyFrom (f i) = (ts.bodyFrom i).map (·.renumber f) := by
  rw [bodyFrom, h.bodyOpener_eq, bodyFrom]
  cases ho : ts.bodyOpener i with
  | none => rfl
  | some j => exact h.group?_eq (h.succ_of_kind? (bodyOpener_spec ho).2 rfl)

/-- A parameter list found ends where its number says. -/
theorem succ_of_parameterList (h : ts.Renumbers ts' f) (hg : ts.parameterList i = some g) :
    f (g.closer + 1) = f g.closer + 1 := by
  obtain ⟨j, -, hj⟩ := Option.bind_eq_some_iff.mp hg
  obtain ⟨t, ht, hgroup⟩ := Option.bind_eq_some_iff.mp hj
  obtain ⟨hlt, rfl⟩ := Array.getElem?_eq_some_iff.mp ht
  exact (h.marks j hlt g (.inl hgroup)).2

theorem declare_eq (h : ts.Renumbers ts' f) (hi : f (i + 1) = f i + 1) {t' : Token}
    (ht : t.Becomes f t') : (ts.declare i t).Becomes f (ts'.declare (f i) t') := by
  have hlist := h.parameterList_eq hi
  have hbody := h.bodyFrom_eq (i + 1)
  rw [hi] at hbody
  -- the body that follows a parameter list
  have hafter : ∀ g, ts.parameterList i = some g →
      ts'.bodyFrom (f g.closer + 1) = (ts.bodyFrom (g.closer + 1)).map (·.renumber f) :=
    fun g hg => by rw [← h.succ_of_parameterList hg, h.bodyFrom_eq]
  unfold declare
  rw [ht.kind, hlist]
  obtain ⟨kind, text, group, parameters, body, commentEnd⟩ := ht
  split
  · cases hg : ts.parameterList i with
    | none => exact ⟨kind, text, group, parameters, body, commentEnd⟩
    | some g => exact ⟨rfl, text, group, rfl, hafter g hg, commentEnd⟩
  · cases hg : ts.parameterList i with
    | none => exact ⟨kind, text, group, parameters, body, commentEnd⟩
    | some g => exact ⟨rfl, text, group, rfl, hafter g hg, commentEnd⟩
  · exact ⟨rfl, text, group, rfl, body, commentEnd⟩
  · cases hg : ts.parameterList i with
    | none => exact ⟨rfl, text, group, parameters, hbody, commentEnd⟩
    | some g => exact ⟨rfl, text, group, rfl, hafter g hg, commentEnd⟩
  all_goals first
    | exact ⟨rfl, text, group, parameters, hbody, commentEnd⟩
    | exact ⟨kind, text, group, parameters, body, commentEnd⟩

end Renumbers

/-- Whatever is marked on a token joins two brackets. -/
theorem Marked.joins_of_mark {ts : Tokens} (hm : ts.Marked) {i : Nat} (hi : i < ts.size) {g : Group}
    (hg : ts[i].group = some g ∨ ts[i].parameters = some g ∨ ts[i].body = some g) :
    g.Joins ts.kind? := by
  have hget := Array.getElem?_eq_getElem hi
  rcases hg with hg | hg | hg
  · exact (hm.joins i g (by simp [group?, hget, hg])).1
  · exact (hm.joins _ g (hm.parameters i g (by simp [hget, hg])).group).1
  · exact (hm.joins _ g (hm.body i g (by simp [hget, hg])).group).1

/-- Brackets that are joined are not in the bodies of tags. -/
theorem Numbered.succ_of_joins {ts ts' : Tokens} {f : Nat → Nat} (h : Numbered ts ts' f) {g : Group}
    (hg : g.Joins ts.kind?) :
    f (g.opener + 1) = f g.opener + 1 ∧ f (g.closer + 1) = f g.closer + 1 := by
  obtain ⟨k, k', hk, hk', hcloser⟩ := hg.kinds
  have hsucc : ∀ (j : Nat) (k : Kind), ts.kind? j = some k → k.isBody = false →
      f (j + 1) = f j + 1 := by
    intro j k hk hbody
    obtain ⟨t, ht, rfl⟩ := Option.map_eq_some_iff.mp hk
    obtain ⟨hj, rfl⟩ := Array.getElem?_eq_some_iff.mp ht
    refine ((h j hj).resolve_left fun hout => ?_).1
    rw [hout.body] at hbody
    cases hbody
  have hplain : k.isBody = false ∧ k'.isBody = false := by
    revert hcloser
    cases k <;> simp [Kind.closer?] <;> rintro rfl <;> exact ⟨rfl, rfl⟩
  exact ⟨hsucc _ _ hk hplain.1, hsucc _ _ hk' hplain.2⟩

theorem declare_of_isBody (ts : Tokens) (i : Nat) {t : Token} (ht : t.kind.isBody = true) :
    ts.declare i t = t := by
  unfold declare
  split <;> rename_i hk <;> first
    | (rw [hk] at ht; cases ht)
    | rfl

/-- Tokens that are numbered anew get the same extents. -/
theorem Renumbers.withExtents {ts ts' : Tokens} {f : Nat → Nat} (h : ts.Renumbers ts' f)
    (hgrouped : ts.Grouped) (hplain : ∀ t ∈ ts, IsUnmarked t) :
    ts.withExtents.Renumbers ts'.withExtents f := by
  have hsize : ∀ us : Tokens, us.withExtents.size = us.size := fun us => Array.size_mapIdx
  have hget : ∀ (us : Tokens) (i : Nat) (hi : i < us.withExtents.size), us.withExtents[i] =
      if (getElem us i (hsize us ▸ hi)).kind = .docOpen then
        { getElem us i (hsize us ▸ hi) with commentEnd := us.commentEnd (i + 1) }
      else us.declare i (getElem us i (hsize us ▸ hi)) := by
    intro us i hi
    exact Array.getElem_mapIdx _
  have hstep : Numbered ts.withExtents ts'.withExtents f := by
    intro i hi
    rw [hget ts i hi]
    rcases h.step i (hsize ts ▸ hi) with hout | ⟨hsucc, hi', ht⟩
    · refine .inl ?_
      rw [if_neg (by intro hk; have := hout.body; rw [hk] at this; cases this),
        declare_of_isBody ts i hout.body]
      exact hout
    · refine .inr ⟨hsucc, by rw [hsize]; exact hi', ?_⟩
      rw [hget ts' (f i), ht.kind]
      split
      · refine ⟨ht.kind, ht.text, ht.group, ht.parameters, ht.body, ?_⟩
        rw [← hsucc, h.commentEnd_eq]
      · exact h.declare_eq hsucc ht
  refine ⟨h.zero, hstep, fun i hi => ?_, fun i hi g hg =>
    hstep.succ_of_joins ((hgrouped.withExtents hplain).joins_of_mark hi hg)⟩
  rw [hsize, hsize]
  exact h.past i (hsize ts ▸ hi)

end Tokens
end PhpDoc
