import PhpDoc.Proofs.Walks
/-!
Where the walk goes on after a statement that cannot be followed. Unless the statement looks ahead,
that is the first boundary after its first token. A statement that has looked past this boundary hides
what follows it.
-/
namespace PhpDoc

namespace Outline
open Step

/-- The boundary after the token at an index: past the first semicolon, past the first block, at the
first closing brace or at the end of the region, whichever comes first. -/
def boundary (ts : Tokens) (stop i : Nat) : Nat :=
  ts.atOrAfter (resume ts stop (i + 1))

def Ends (ts : Tokens) (stop : Nat) : Prop :=
  stop = ts.size ∨ ts.kind? stop = some .closeBrace ∨ ts.kind? stop = some .closeParen

section
variable {b : Binder} {ts : Tokens} {scope : Scope} {i j n s stop : Nat}

theorem Ends.le (h : Ends ts stop) : stop ≤ ts.size := by
  rcases h with rfl | h | h
  · exact Nat.le_refl _
  all_goals exact Nat.le_of_lt (Tokens.lt_size_of_kind? h)

/-- Tokens without a boundary do not reach past the end of a region. -/
theorem Clear.le_of_ends (h : Clear ts s j) (he : Ends ts stop) (hs : s < stop)
    (hj : j ≤ ts.size) : j ≤ stop := by
  refine Nat.le_of_not_lt fun hlt => ?_
  rcases he with rfl | he | he
  · omega
  all_goals cases h.kind stop _ hs hlt he

theorem resume_of_not_isBoundary (hi : i < ts.size) (hs : i < stop)
    (hk : ∀ k, ts.kind? i = some k → isBoundary k = false) :
    resume ts stop i = resume ts stop (i + 1) := by
  have hkind : isBoundary ts[i].kind = false :=
    hk _ (kind?_eq_some (Array.getElem?_eq_getElem hi))
  rw [resume, dif_pos ⟨hi, hs⟩]
  split <;> simp_all [isBoundary]

/-- Nothing between two indexes without a boundary between them keeps the walk from going on. -/
theorem Clear.resume_eq (h : Clear ts s j) (hs : s < n) (hn : n ≤ j) (hj : j ≤ ts.size)
    (hstop : j ≤ stop) : resume ts stop n = resume ts stop j := by
  induction hd : j - n generalizing n with
  | zero => rw [show n = j by omega]
  | succ d ih =>
    rw [resume_of_not_isBoundary (by omega) (by omega) fun k => h.kind n k hs (by omega)]
    exact ih (by omega) (by omega) (by omega)

/-- The group of an opening brace. -/
theorem opensFrom_of_brace {g : Group} (hm : ts.Marked) (hi : i < ts.size)
    (hk : ts[i].kind = .openBrace) (hg : ts[i].group = some g) :
    Tokens.OpensFrom ts i .openBrace g ∧ i = g.opener := by
  have ht := Array.getElem?_eq_getElem hi
  have hgroup : ts.group? i = some g := by rw [Tokens.group?, ht, Option.bind_some, hg]
  have hkind : ts.kind? i = some .openBrace := (kind?_eq_some ht).trans (congrArg some hk)
  obtain rfl := hm.opener_eq hgroup hkind rfl
  exact ⟨⟨Nat.le_refl _, hgroup, hkind⟩, rfl⟩

/-- Inside a block the walk goes on in the block or at its end. -/
theorem resume_le_closer {g : Group} (hm : ts.Marked) (hg : Tokens.OpensFrom ts i .openBrace g)
    (ho : g.opener < n) (hc : n ≤ g.closer) : resume ts stop n ≤ g.closer := by
  obtain ⟨k, k', hk, hclose, hkk'⟩ := (hm.joins _ _ hg.group).1.kinds
  rw [hg.kind] at hk
  cases hk
  cases hkk'
  have hlt : ∀ n (hn : n < ts.size), n ≤ g.closer → ts[n].kind ≠ .closeBrace → n < g.closer := by
    intro n hn hle hk
    refine Nat.lt_of_le_of_ne hle fun he => hk ?_
    subst he
    exact Option.some.inj ((kind?_eq_some (Array.getElem?_eq_getElem hn)).symm.trans hclose)
  fun_induction resume ts stop n with
  | case1 n hn hk => exact hlt n hn.1 hc (by rw [hk]; simp)
  | case2 n hn g' hg' hk =>
    -- a block inside of this one ends before it does
    obtain ⟨hopens, rfl⟩ := opensFrom_of_brace hm hn.1 hk hg'
    have := hlt _ hn.1 hc (by rw [hk]; simp)
    rcases hm.apart _ _ _ _ hg.group hopens.group with rfl | hb | hb
    · omega
    · have := hb.apart
      have := hb.closer_lt
      omega
    · exact hb.closer_lt
  | case3 | case5 => exact hc
  | case4 n hn hsemi hclose hopen ih =>
    exact ih (Nat.lt_succ_of_lt ho) (hlt n hn.1 hc hclose)

/-- From between an index and the place where the walk goes on from it, the walk goes on no later. -/
theorem resume_le_of_lt (hm : ts.Marked) (hi : i ≤ n) (hn : n < resume ts stop i) :
    resume ts stop n ≤ resume ts stop i := by
  fun_induction resume ts stop i with
  | case1 i hlt hk =>
    obtain rfl : i = n := by omega
    refine Nat.le_of_eq ?_
    rw [resume, dif_pos hlt, hk]
  | case2 i hlt g hg hk =>
    obtain ⟨hopens, rfl⟩ := opensFrom_of_brace hm hlt.1 hk hg
    rcases Nat.eq_or_lt_of_le hi with rfl | hin
    · refine Nat.le_of_eq ?_
      rw [resume, dif_pos hlt, hk, hg]
    · exact Nat.le_succ_of_le (resume_le_closer hm hopens hin (Nat.le_of_lt_succ hn))
  | case3 | case5 => omega
  | case4 i hlt hsemi hclose hopen ih =>
    rcases Nat.eq_or_lt_of_le hi with rfl | hin
    · rw [resume, dif_pos hlt]
      split <;> simp_all
    · exact ih hin hn

/-- A statement that fails before the first boundary, or at it, is left at this boundary. -/
theorem Clear.recover_eq (h : Clear ts s j) (he : Ends ts stop) (hs : s < stop)
    (hj : j ≤ ts.size) : recover ts stop s j = boundary ts stop s := by
  have hlt : s < ts.size := Nat.lt_of_lt_of_le hs he.le
  have hle := h.le_of_ends he hs hj
  unfold recover boundary
  rcases Nat.lt_or_ge s j with hsj | hsj
  · rw [Nat.max_eq_left hsj, h.resume_eq (Nat.lt_succ_self s) hsj hj hle]
  · rw [Nat.max_eq_right (Nat.le_succ_of_le hsj)]

theorem resume_le_size (hm : ts.Marked) (hj : j ≤ ts.size) : resume ts stop j ≤ ts.size := by
  fun_induction resume ts stop j with
  | case1 j hlt => exact hlt.1
  | case2 j hlt g hg hk => exact closer_lt_size hm (opensFrom_of_brace hm hlt.1 hk hg).1
  | case3 | case5 => exact hj
  | case4 j hlt hsemi hclose hopen ih => exact ih hlt.1

theorem atOrAfter_le (hi : i ≤ j) (hj : ts.Settled j) : ts.atOrAfter i ≤ j := by
  fun_induction Tokens.atOrAfter ts i with
  | case1 i hlt htrivia ih =>
    refine ih (Nat.lt_of_le_of_ne hi fun he => ?_)
    subst he
    have hhere := hj.here
    rw [Tokens.atOrAfter, dif_pos hlt, if_pos htrivia] at hhere
    have := ts.le_atOrAfter (i + 1)
    omega
  | case2 | case3 => exact hi

/-- The walk goes on no later than at the first boundary exactly if the statement has failed before
it, or at it where the region ends. -/
theorem recover_le_iff (hm : ts.Marked) (hj : ts.Settled j) :
    recover ts stop s j ≤ boundary ts stop s ↔
      j ≤ s + 1 ∨ j < resume ts stop (s + 1) ∨
        (j = boundary ts stop s ∧ resume ts stop j = j) := by
  unfold recover boundary
  rcases Nat.lt_or_ge (s + 1) j with hsj | hsj
  · rw [Nat.max_eq_left (Nat.le_of_lt hsj)]
    have hle := le_resume hm stop j
    have hskip := ts.le_atOrAfter (resume ts stop j)
    rcases Nat.lt_or_ge j (resume ts stop (s + 1)) with hlt | hge
    · have := resume_le_of_lt hm (Nat.le_of_lt hsj) hlt
      have hend : resume ts stop (s + 1) ≤ ts.size :=
        resume_le_size hm (Nat.le_trans (Nat.le_of_lt hsj) hj.le)
      refine iff_of_true (atOrAfter_le ?_ (Tokens.settled_atOrAfter hend)) (.inr (.inl hlt))
      exact Nat.le_trans this (ts.le_atOrAfter _)
    · have hafter := atOrAfter_le hge hj
      constructor
      · intro h
        refine .inr (.inr ⟨?_, ?_⟩) <;> omega
      · rintro (h | h | ⟨h, hstay⟩)
        · omega
        · omega
        · refine Nat.le_of_eq ?_
          rw [hstay, hj.here, ← h]
  · rw [Nat.max_eq_right hsj]
    exact iff_of_true (Nat.le_refl _) (.inl hsj)

inductive Reaches (b : Binder) (ts : Tokens) : Scope → Nat → Nat → Prop
  | file : Reaches b ts {} (ts.atOrAfter 0) ts.size
  | step {scope next : Scope} {i stop : Nat} (h : Reaches b ts scope i stop) (hi : i < ts.size)
    (hs : i < stop) (result : (outcome b ts scope i).result = .ok next) :
    Reaches b ts next (outcome b ts scope i).position stop
  | fault {scope : Scope} {e : ScanError} {i stop : Nat} (h : Reaches b ts scope i stop)
    (hi : i < ts.size) (hs : i < stop) (result : (outcome b ts scope i).result = .error e) :
    Reaches b ts scope (recover ts stop i (outcome b ts scope i).position) stop
  | region {scope inner : Scope} {i stop start last : Nat} (h : Reaches b ts scope i stop)
    (hi : i < ts.size) (hs : i < stop)
    (mem : .region inner start last ∈ (outcome b ts scope i).items) : Reaches b ts inner start last

structure Placed (ts : Tokens) (scope : Scope) (i stop : Nat) : Prop where
  settled : ts.Settled i
  kind : scope.kind ≠ .function
  ends : Ends ts stop

namespace Reaches

theorem placed (hm : ts.Marked) (h : Reaches b ts scope i stop) : Placed ts scope i stop := by
  induction h with
  | file => exact ⟨Tokens.settled_atOrAfter (Nat.zero_le _), (by simp), .inl rfl⟩
  | @step scope next i stop h hi hs result ih =>
    have hkind := (outcome_of_holds (statement_returns b scope ⟨i, []⟩)).1 next result
    exact ⟨(outcome_sound hm).settled ih.settled, hkind ▸ ih.kind, ih.ends⟩
  | fault h hi hs result ih =>
    refine ⟨Tokens.settled_atOrAfter (resume_le_size hm ?_), ih.kind, ih.ends⟩
    exact Nat.max_le.mpr ⟨((outcome_sound hm).settled ih.settled).le, hi⟩
  | region h hi hs mem ih =>
    cases (outcome_sound hm).items _ mem with
    | region starts settled ends kind => exact ⟨settled, kind ih.kind, .inr ends⟩

/-- What is met from there on is met on the walk over the file. -/
theorem subset_visits (hm : ts.Marked) {vs : List Visit} (h : Reaches b ts scope i stop)
    (hw : Walks b ts scope i stop vs) : vs ⊆ visits b ts := by
  have hinside : ∀ inner start last,
      Walks b ts inner start last (walk b ts (ts.size - start + 1) inner start last) :=
    fun _ _ _ => walks_walk hm (Nat.lt_succ_self _)
  induction h generalizing vs with
  | file =>
    rw [visits, ← (walks_iff hm (Nat.lt_succ_of_le (Nat.sub_le _ _))).mp hw]
    exact fun _ h => h
  | step h hi hs result ih =>
    exact fun v hv => ih (.step hi hs result (fun _ _ _ _ => hinside _ _ _) hw)
      (List.mem_append_right _ hv)
  | fault h hi hs result ih =>
    exact fun v hv => ih (.fault hi hs result (fun _ _ _ _ => hinside _ _ _) hw)
      (List.mem_append_right _ (List.mem_cons_of_mem _ hv))
  | @region scope inner i stop start last h hi hs mem ih =>
    intro v hv
    obtain rfl := (walks_iff hm (Nat.lt_succ_self _)).mp hw
    have hmet : ∀ rest, v ∈ (outcome b ts scope i).items.flatMap
        (Item.met fun inner start last => walk b ts (ts.size - start + 1) inner start last) ++ rest :=
      fun rest => List.mem_append_left _ (List.mem_flatMap.mpr ⟨_, mem, hv⟩)
    cases hr : (outcome b ts scope i).result with
    | ok next => exact ih (.step hi hs hr (fun _ _ _ _ => hinside _ _ _) (hinside next _ _)) (hmet _)
    | error e => exact ih (.fault hi hs hr (fun _ _ _ _ => hinside _ _ _) (hinside scope _ _)) (hmet _)

theorem fault_mem {e : ScanError} (hm : ts.Marked) (h : Reaches b ts scope i stop)
    (hi : i < ts.size) (hs : i < stop) (he : (outcome b ts scope i).result = .error e) :
    .fault e ∈ visits b ts :=
  h.subset_visits hm (.fault hi hs he (fun _ _ _ _ => walks_walk hm (Nat.lt_succ_self _))
    (walks_walk hm (Nat.lt_succ_self _))) (List.mem_append_right _ (List.mem_cons_self ..))

end Reaches

def strayBrace : String :=
  "<?php\n\x7d\n$y = 1;\nclass A \x7b\x7d\n"

def emptyImport : String :=
  "<?php\nuse ;\nclass A \x7b\x7d\n"

theorem error_of_toOption {e α : Type} {r : Except e α} (h : r.toOption = none) :
    ∃ x, r = .error x := by
  cases r with
  | ok a => cases h
  | error x => exact ⟨x, rfl⟩

/-- A statement of a file that cannot be followed is reported. It is left at the first boundary after
its first token unless it looks ahead; at all events it is left no later than there exactly if it
has failed before this boundary, or at it where the region ends. -/
theorem recover_of_fault (source : String) {e : ScanError}
    (h : Reaches b (tokenize source) scope s stop) (hs : s < stop)
    (he : (outcome b (tokenize source) scope s).result = .error e) :
    .fault e ∈ visits b (tokenize source) ∧
      (¬LooksAhead (tokenize source) scope s →
        recover (tokenize source) stop s (outcome b (tokenize source) scope s).position =
          boundary (tokenize source) stop s) ∧
      (recover (tokenize source) stop s (outcome b (tokenize source) scope s).position ≤
          boundary (tokenize source) stop s ↔
        (outcome b (tokenize source) scope s).position ≤ s + 1 ∨
          (outcome b (tokenize source) scope s).position < resume (tokenize source) stop (s + 1) ∨
          ((outcome b (tokenize source) scope s).position = boundary (tokenize source) stop s ∧
            resume (tokenize source) stop (outcome b (tokenize source) scope s).position =
              (outcome b (tokenize source) scope s).position)) := by
  have hm := tokenize_marked source
  have hp := h.placed hm
  have hj : (tokenize source).Settled (outcome b (tokenize source) scope s).position :=
    (outcome_sound hm).settled hp.settled
  refine ⟨h.fault_mem hm (Nat.lt_of_lt_of_le hs hp.ends.le) hs he, fun hahead => ?_,
    recover_le_iff hm hj⟩
  have hhead := ((outcome_of_holds (statement_holds hm b scope s)).2 e he).2 hp.kind hahead
  exact hhead.clear.recover_eq hp.ends hs hj.le

theorem recover_of_fault_strayBrace : ∃ e,
    (outcome .none (tokenize strayBrace) {} 1).result = .error e ∧
      .fault e ∈ visits .none (tokenize strayBrace) ∧
      recover (tokenize strayBrace) (tokenize strayBrace).size 1
        (outcome .none (tokenize strayBrace) {} 1).position =
        boundary (tokenize strayBrace) (tokenize strayBrace).size 1 := by
  have hreach : Reaches .none (tokenize strayBrace) {} 1 (tokenize strayBrace).size :=
    (show (tokenize strayBrace).atOrAfter 0 = 1 by decide +kernel) ▸ .file
  obtain ⟨e, he⟩ : ∃ e, (outcome .none (tokenize strayBrace) {} 1).result = .error e :=
    error_of_toOption (by decide +kernel)
  have hfault := recover_of_fault strayBrace hreach (by decide +kernel) he
  refine ⟨e, he, hfault.1, hfault.2.1 ?_⟩
  have hkind : (tokenize strayBrace).kind? 1 ≠ some .useKw := by decide +kernel
  have hfunction : (tokenize strayBrace)[(afterModifiers (tokenize strayBrace) 1).1]?.any
      (·.kind.isFunction) = false := by decide +kernel
  rintro (⟨huse, -⟩ | ⟨t, ht, hf, -⟩)
  · exact hkind huse
  · rw [ht, Option.any_some, hf] at hfunction
    cases hfunction

/-- A statement that looks ahead may hide the statement after it. -/
theorem not_recover_le_boundary : ¬∀ (source : String) (b : Binder) (scope : Scope) (s stop : Nat)
    (e : ScanError), Reaches b (tokenize source) scope s stop → s < stop →
      (outcome b (tokenize source) scope s).result = .error e →
      recover (tokenize source) stop s (outcome b (tokenize source) scope s).position ≤
        boundary (tokenize source) stop s := by
  intro h
  have hreach : Reaches .none (tokenize emptyImport) {} 1 (tokenize emptyImport).size :=
    (show (tokenize emptyImport).atOrAfter 0 = 1 by decide +kernel) ▸ .file
  obtain ⟨e, he⟩ : ∃ e, (outcome .none (tokenize emptyImport) {} 1).result = .error e :=
    error_of_toOption (by decide +kernel)
  have hle := h emptyImport .none {} 1 _ e hreach (by decide +kernel) he
  revert hle
  decide +kernel

end
end Outline
end PhpDoc
