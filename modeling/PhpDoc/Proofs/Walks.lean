import PhpDoc.Proofs.Statements
/-!
The walk over the statements of a file ends. Every statement proceeds, whether it ends well or fails,
and so does every region in it; the walk is the only answer of the loop over the statements, which
has no bound.
-/
namespace PhpDoc.Outline
open Step

section
variable {b : Binder} {ts : Tokens} {scope : Scope} {i : Nat}

/-- What holds after a statement holds of its outcome. -/
theorem outcome_of_holds {good : Scope → Progress → Prop} {bad : ScanError → Progress → Prop}
    (h : Holds ts (statement b scope) good bad ⟨i, []⟩) :
    (∀ next, (outcome b ts scope i).result = .ok next →
        good next ⟨(outcome b ts scope i).position, (outcome b ts scope i).items⟩) ∧
      ∀ e, (outcome b ts scope i).result = .error e →
        bad e ⟨(outcome b ts scope i).position, (outcome b ts scope i).items⟩ := by
  unfold Holds at h
  unfold outcome
  rcases hrun : (((statement b scope).run ts).run).run ⟨i, []⟩ with ⟨e | next, q⟩
  · rw [hrun] at h
    exact ⟨(by simp), fun _ he => by cases he; exact h⟩
  · rw [hrun] at h
    exact ⟨fun _ hn => by cases hn; exact h, (by simp)⟩

/-- What a statement has noted, whether it ends well or fails. -/
theorem outcome_sound (hm : ts.Marked) :
    Sound ts i scope ⟨(outcome b ts scope i).position, (outcome b ts scope i).items⟩ := by
  obtain ⟨hgood, hbad⟩ := outcome_of_holds (statement_holds hm b scope i)
  cases hr : (outcome b ts scope i).result with
  | ok next => exact (hgood next hr).sound
  | error e => exact (hbad e hr).1

theorem le_resume (hm : ts.Marked) (stop j : Nat) : j ≤ resume ts stop j := by
  fun_induction resume ts stop j with
  | case1 | case3 | case5 => omega
  | case2 j hj g hg hk =>
    have hopens := opensFrom_of_group hm (Array.getElem?_eq_getElem hj.1) hg (by rw [hk]; rfl)
    have := (hm.joins _ _ hopens.group).1.lt
    have := hopens.le
    omega
  | case4 j hj _ _ _ ih => omega

/-- A statement at an index proceeds: each region in it starts later and ends within the file, and the
walk goes on later as well, be it after the statement or, if that fails, after a boundary. -/
structure Proceeds (b : Binder) (ts : Tokens) (scope : Scope) (i : Nat) : Prop where
  regions : ∀ inner start stop,
    .region inner start stop ∈ (outcome b ts scope i).items → i < start ∧ stop < ts.size
  ends : ∀ next, (outcome b ts scope i).result = .ok next → i < (outcome b ts scope i).position
  fails : ∀ e stop, (outcome b ts scope i).result = .error e →
    i < recover ts stop i (outcome b ts scope i).position

theorem statement_proceeds (hm : ts.Marked) (b : Binder) (scope : Scope) (i : Nat) :
    Proceeds b ts scope i := by
  obtain ⟨hgood, -⟩ := outcome_of_holds (statement_holds hm b scope i)
  refine ⟨fun inner start stop hmem => ?_, fun next hnext => (hgood next hnext).lt,
    fun e stop he => ?_⟩
  · cases (outcome_sound hm).items _ hmem with
    | region starts settled ends kind =>
      exact ⟨starts, ends.elim Tokens.lt_size_of_kind? Tokens.lt_size_of_kind?⟩
  · have hle := le_resume hm stop (max (outcome b ts scope i).position (i + 1))
    have := ts.le_atOrAfter (resume ts stop (max (outcome b ts scope i).position (i + 1)))
    unfold recover
    omega

inductive Walks (b : Binder) (ts : Tokens) : Scope → Nat → Nat → List Visit → Prop
  | done {scope : Scope} {i stop : Nat} (h : ts.size ≤ i ∨ stop ≤ i) : Walks b ts scope i stop []
  | step {scope next : Scope} {i stop : Nat} {inside : Scope → Nat → Nat → List Visit}
    {rest : List Visit} (hi : i < ts.size) (hs : i < stop)
    (result : (outcome b ts scope i).result = .ok next)
    (regions : ∀ inner start stop, .region inner start stop ∈ (outcome b ts scope i).items →
      Walks b ts inner start stop (inside inner start stop))
    (more : Walks b ts next (outcome b ts scope i).position stop rest) :
    Walks b ts scope i stop ((outcome b ts scope i).items.flatMap (Item.met inside) ++ rest)
  | fault {scope : Scope} {e : ScanError} {i stop : Nat} {inside : Scope → Nat → Nat → List Visit}
    {rest : List Visit} (hi : i < ts.size) (hs : i < stop)
    (result : (outcome b ts scope i).result = .error e)
    (regions : ∀ inner start stop, .region inner start stop ∈ (outcome b ts scope i).items →
      Walks b ts inner start stop (inside inner start stop))
    (more : Walks b ts scope (recover ts stop i (outcome b ts scope i).position) stop rest) :
    Walks b ts scope i stop
      ((outcome b ts scope i).items.flatMap (Item.met inside) ++ .fault e :: rest)

theorem met_congr {inside inside' : Scope → Nat → Nat → List Visit} {items : List Item}
    (h : ∀ inner start stop, .region inner start stop ∈ items →
      inside inner start stop = inside' inner start stop) :
    items.flatMap (Item.met inside) = items.flatMap (Item.met inside') := by
  rw [List.flatMap_def, List.flatMap_def]
  refine congrArg List.flatten (List.map_congr_left fun item hitem => ?_)
  cases item with
  | visit v => rfl
  | region inner start stop => exact h inner start stop hitem

/-- The loop has one answer at most. -/
theorem Walks.unique {stop : Nat} {vs ws : List Visit} (h : Walks b ts scope i stop vs)
    (h' : Walks b ts scope i stop ws) : vs = ws := by
  induction h generalizing ws with
  | done hend =>
    cases h' with
    | done => rfl
    | step hi hs | fault hi hs => omega
  | step hi hs result regions more ihr ihm =>
    cases h' with
    | done hend => omega
    | step _ _ result' regions' more' =>
      rw [result] at result'
      cases result'
      have hmet := met_congr fun inner start stop hmem =>
        ihr inner start stop hmem (regions' inner start stop hmem)
      rw [hmet, ihm more']
    | fault _ _ result' =>
      rw [result] at result'
      cases result'
  | fault hi hs result regions more ihr ihm =>
    cases h' with
    | done hend => omega
    | step _ _ result' =>
      rw [result] at result'
      cases result'
    | fault _ _ result' regions' more' =>
      rw [result] at result'
      cases result'
      have hmet := met_congr fun inner start stop hmem =>
        ihr inner start stop hmem (regions' inner start stop hmem)
      rw [hmet, ihm more']

/-- The walk is an answer of the loop, its bound being larger than what is left of the file. -/
theorem walks_walk (hm : ts.Marked) {bound stop : Nat} (hbound : ts.size - i < bound) :
    Walks b ts scope i stop (walk b ts bound scope i stop) := by
  induction bound generalizing scope i stop with
  | zero => omega
  | succ bound ih =>
    rw [walk]
    split
    · rename_i hend
      exact .done hend
    · rename_i hmore
      obtain ⟨hregions, hends, hfails⟩ := statement_proceeds hm b scope i
      have hin : ∀ inner start end', .region inner start end' ∈ (outcome b ts scope i).items →
          Walks b ts inner start end' (walk b ts bound inner start end') := by
        intro inner start end' hmem
        have := (hregions inner start end' hmem).1
        exact ih (by omega)
      simp only
      split
      · rename_i next hr
        have := hends next hr
        exact .step (by omega) (by omega) hr hin (ih (by omega))
      · rename_i e hr
        have := hfails e stop hr
        exact .fault (by omega) (by omega) hr hin (ih (by omega))

/-- From every position and in every scope the loop has exactly one answer, which the walk gives. -/
theorem walks_iff (hm : ts.Marked) {bound stop : Nat} {vs : List Visit}
    (hbound : ts.size - i < bound) :
    Walks b ts scope i stop vs ↔ vs = walk b ts bound scope i stop :=
  ⟨fun h => h.unique (walks_walk hm hbound), fun h => h ▸ walks_walk hm hbound⟩

end
end PhpDoc.Outline
