import PhpDoc.Proofs.Imports
import PhpDoc.Proofs.Progress
/-!
What one statement does to the position. It ends after the token that it starts at, with sound
progress. A statement that fails has not moved past a boundary unless it looks ahead for one.
-/
namespace PhpDoc.Outline
open Step

section
variable {ts : Tokens} {i : Nat} {outer scope : Scope} {p : Progress}

theorem namespaceName_holds (hp : Head ts i outer p) (hi : i < p.position) :
    Holds ts namespaceName (fun _ q => Head ts i outer q ∧ i < q.position)
      (fun _ q => Head ts i outer q) p := by
  simp only [namespaceName, holds_bind, holds_kind?, holds_ite, holds_pure]
  refine ⟨fun hname => holds_take (fun t ht _ =>
    ⟨hp.next (Tokens.lt_size ht) (.inr fun k hk => ?_), (hp.past (Tokens.lt_size ht)).lt⟩)
    fun e he => hp, fun _ => ⟨hp, hi⟩⟩
  rw [hk] at hname
  exact not_isBoundary_of_isName hname

theorem namespaceStatement_holds (hm : ts.Marked) (hp : Head ts i outer p) (hi : p.position = i) :
    Holds ts (namespaceStatement scope) (fun _ q => Past ts i outer q)
      (fun _ q => Head ts i outer q) p := by
  unfold namespaceStatement
  rw [holds_bind]
  refine holds_take (fun keyword hk _ => ?_) (fun e he => hp)
  have hlt := Tokens.lt_size hk
  refine holds_bind_of _ (namespaceName_holds (hp.next hlt (.inl hi)) (hp.past hlt).lt) ?_
  rintro bare q ⟨hq, hlt⟩
  simp only [holds_bind, holds_meet, holds_kind?]
  have hmet := hq.meet (v := .nameSpace (if bare = "" then "" else "\\" ++ bare))
    (by simp [Visit.comment?])
  split
  · simp only [holds_bind]
    exact holds_take (fun t ht _ => hmet.past (Tokens.lt_size ht)) fun e he => hmet
  · simp only [holds_bind, holds_within, holds_pure]
    refine holds_paired (fun body hb => ?_) fun _ => hmet
    have hopens := hm.body i body (by rw [← hi, hk]; exact hb)
    refine holds_enter (fun inner hin => ?_) fun e he => hmet
    refine holds_take (fun t ht _ =>
      ⟨?_, (hmet.sound.note ?_).move (closer_lt_size hm hopens)⟩) fun e he => hmet
    · exact Nat.lt_of_succ_lt (lt_after_closer hm hopens)
    · exact .of_group hm hopens (.inl rfl) (Nat.lt_trans hlt (ts.lt_next _))
        (Tokens.settled_next (Tokens.lt_size ht)) fun _ => by simp [kind_of_enter hin]
  · exact hmet

theorem past_onward : Onward ts (Past ts i outer) where
  move p j h hj hs :=
    ⟨Nat.lt_of_lt_of_le h.lt hj, ⟨h.sound.items, fun hi => hs (h.sound.settled hi)⟩⟩
  meet p v h hv := ⟨h.lt, h.sound.note (.visit (by simp [hv]))⟩

theorem traitStatement_holds (hm : ts.Marked) (hp : Head ts i outer p) :
    Holds ts traitStatement (fun _ q => Past ts i outer q) (fun _ q => Sound ts i outer q) p := by
  simp only [traitStatement, holds_bind]
  refine holds_take (fun _ ht _ => ?_) fun _ _ => hp.sound
  refine (Keeps.skipTo past_onward _ _ (hp.past (Tokens.lt_size ht))).mono (fun _ q hq => ?_)
    fun _ q hq => hq.sound
  refine holds_current (fun t ht => ?_) fun _ => hq.sound
  simp only [holds_ite, holds_bind, holds_jump]
  refine ⟨fun hbrace => holds_paired (fun g hg => ?_) fun _ => hq.sound,
    fun _ => holds_take (fun _ _ _ => ?_) fun _ _ => hq.sound⟩
  · have hopens := opensFrom_of_group hm ht hg (by rw [hbrace]; rfl)
    exact ⟨Nat.lt_trans hq.lt (lt_after_closer hm hopens), hq.sound.move (closer_lt_size hm hopens)⟩
  · exact ⟨Nat.lt_trans hq.lt (ts.lt_next _), hq.sound.move (Tokens.lt_size ht)⟩

theorem importStatement_holds (hp : Head ts i outer p) :
    Holds ts (importStatement scope) (fun _ q => Past ts i outer q)
      (fun _ q => Sound ts i outer q) p := by
  unfold importStatement
  rw [holds_bind]
  refine holds_take (fun _ ht _ => ?_) fun _ _ => hp.sound
  refine ((importsClasses_keeps past_onward).bind fun classes => .bind .read fun ts =>
    .bind (importList_keeps past_onward _ _) fun inner => .bind (.take past_onward _) fun _ =>
    .pure inner) _ (hp.past (Tokens.lt_size ht)) |>.mono_bad fun _ _ h => h.sound

def importsIn (k : ScopeKind) : Bool :=
  [.root, .nameSpace, .classLike].contains k

theorem useStatement_holds (hm : ts.Marked) (hp : Head ts i outer p) :
    Holds ts (useStatement scope) (fun _ q => Past ts i outer q)
      (fun _ q => Sound ts i outer q ∧ (importsIn scope.kind = false → Head ts i outer q)) p := by
  unfold useStatement
  cases hk : scope.kind with
  | classLike =>
    rw [holds_bind]
    exact (traitStatement_holds hm hp).mono_bad fun _ _ h => ⟨h, by simp [importsIn]⟩
  | root | nameSpace =>
    exact (importStatement_holds hp).mono_bad fun _ _ h => ⟨h, by simp [importsIn]⟩
  | function | parameters | other => exact ⟨hp.sound, fun _ => hp⟩

theorem read_of_before {n : Nat} {c : DocComment} (h : DocComment.before ts n = some c) :
    ∃ opener, DocComment.read ts opener = .ok c := by
  obtain ⟨opener, -, hc⟩ := Option.bind_eq_some_iff.mp h
  cases hr : DocComment.read ts opener with
  | error e => simp [hr, Except.toOption] at hc
  | ok d =>
    rw [hr] at hc
    cases hc
    exact ⟨opener, hr⟩

theorem meet_holds {v : Visit} {bad : ScanError → Progress → Prop} (hp : Head ts i outer p)
    (hv : v.comment? = none) :
    Holds ts (meet v) (fun _ q => Head ts i outer q ∧ q.position = p.position) bad p :=
  ⟨hp.meet (by simp [hv]), rfl⟩

theorem meetWith_holds {visit : DocComment → Visit} {comment : Option DocComment} {j : Nat}
    {bad : ScanError → Progress → Prop} (hs : Sound ts i outer p) (hj : p.position = j)
    (hc : OfFile ts comment) (hv : ∀ c, (visit c).comment? = some c) :
    Holds ts (meetWith visit comment) (fun _ q => Sound ts i outer q ∧ q.position = j) bad p :=
  holds_meetWith (fun d hd => ⟨hs.note (.visit fun c h => by
    rw [hv d] at h
    cases h
    exact hc d hd), hj⟩) fun _ => ⟨hs, hj⟩

theorem withinGroup_holds {g : Option Group} {j : Nat} {bad : ScanError → Progress → Prop}
    (hm : ts.Marked) (hs : Sound ts i scope p) (hi : i ≤ j)
    (hg : ∀ x, g = some x → Tokens.OpensFrom ts (j + 1) .openParen x) :
    Holds ts (withinGroup scope g) (fun _ q => Sound ts i scope q) bad p := by
  refine holds_withinGroup (fun x hx => (hs.note ?_).move (closer_lt_size hm (hg x hx))) fun _ => hs
  have hle := (hg x hx).le
  have := ts.le_atOrAfter (x.opener + 1)
  exact .of_group hm (hg x hx) (.inr rfl) (by omega) (settled_after_opener hm (hg x hx)) id

/-- The region of a group opened later, from its opener on and up to past its end. -/
theorem within_holds {j : Nat} {k : Kind} {g : Group} {bad : ScanError → Progress → Prop}
    (hm : ts.Marked) (hs : Sound ts i outer p) (hi : i ≤ j)
    (hg : Tokens.OpensFrom ts (j + 1) k g) (hk : k = .openBrace ∨ k = .openParen)
    (hkind : outer.kind ≠ .function → scope.kind ≠ .function) :
    Holds ts (jump (g.opener + 1)) (fun _ q => Holds ts (within scope g.closer)
      (fun _ r => Past ts i outer r) bad q) bad p := by
  have hlt := lt_after_closer hm hg
  have hle := hg.le
  have := ts.le_atOrAfter (g.opener + 1)
  have hend : i < ts.atOrAfter (g.closer + 1) := by omega
  have hstart : i < ts.atOrAfter (g.opener + 1) := by omega
  exact ⟨hend, (hs.note (.of_group hm hg hk hstart (settled_after_opener hm hg) hkind)).move
    (closer_lt_size hm hg)⟩

theorem classStatement_holds {b : Binder} {comment : Option DocComment} (hm : ts.Marked)
    (hp : Head ts i scope p) (hc : OfFile ts comment) :
    Holds ts (classStatement b scope comment) (fun _ q => Past ts i scope q)
      (fun _ q => Sound ts i scope q ∧ (scope.kind ≠ .function → Head ts i scope q)) p := by
  have hle := hp.clear.le
  simp only [classStatement, holds_bind, holds_read, holds_position]
  refine holds_current (fun keyword hk => ?_) fun _ => ⟨hp.sound, fun _ => hp⟩
  refine (meet_holds hp rfl).mono_good fun _ q hq => ?_
  refine holds_paired (fun body hb => ?_) fun _ => ⟨hq.1.sound, fun _ => hq.1⟩
  have hopens := hm.body p.position body (by rw [hk]; exact hb)
  refine (withinGroup_holds hm hq.1.sound hle fun x hx =>
    hm.parameters p.position x (by rw [hk]; exact hx)).mono_good fun _ q hq => ?_
  refine holds_enter (fun inner hin => ?_) fun e he =>
    ⟨hq, fun hkind => absurd he (enter_ne_error (.inl rfl) hkind)⟩
  refine (meetWith_holds hq rfl hc fun _ => rfl).mono_good fun _ r hr => ?_
  refine (meetWith_holds hr.1 rfl hc fun _ => rfl).mono_good fun _ t ht => ?_
  refine within_holds hm ht.1 hle hopens (.inl rfl) fun _ => ?_
  rw [kind_run, kind_of_enter hin]
  simp

theorem captureList_keeps (hm : ts.Marked) : Keeps ts (Past ts i outer) captureList := by
  refine .bind .kind? fun k => ?_
  split
  · refine .bind (.take past_onward none) fun _ => fun p hp => ?_
    rw [holds_bind, holds_kind?]
    split
    · rename_i hparen
      exact (overGroup_holds hm hp hparen rfl).mono_bad fun _ _ h => h ▸ hp
    · exact hp
  · exact .pure _

theorem functionStatement_holds {b : Binder} {comment : Option DocComment} (hm : ts.Marked)
    (hp : Head ts i scope p) (hc : OfFile ts comment) :
    Holds ts (functionStatement b scope comment) (fun _ q => Past ts i scope q)
      (fun _ q => Sound ts i scope q ∧ (scope.kind ≠ .function →
        ts[p.position]?.bind (·.parameters) = none → Head ts i scope q)) p := by
  have hle := hp.clear.le
  simp only [functionStatement, holds_bind, holds_read, holds_position]
  refine holds_current (fun keyword hk => ?_) fun _ => ⟨hp.sound, fun _ _ => hp⟩
  refine (meet_holds hp rfl).mono_good fun _ q hq => ?_
  refine holds_enter (fun inner hin => ?_) fun e he =>
    ⟨hq.1.sound, fun hkind _ => absurd he (enter_ne_error (.inr rfl) hkind)⟩
  refine (meetWith_holds hq.1.sound hq.2 hc fun _ => rfl).mono_good fun _ r hr => ?_
  rw [holds_meet]
  have hs := hr.1.note (.visit (v := .functionDocs (b.run inner comment) p.position
    (ts.declaredName p.position) comment) hc)
  cases hparams : keyword.parameters with
  | none => exact ⟨hs, fun _ _ => ⟨hr.2 ▸ hp.clear, hs⟩⟩
  | some params =>
    have hlist := hm.parameters p.position params (by rw [hk]; exact hparams)
    -- from here on a failure does not count as one in the head of the statement
    have hlate : ∀ q, Sound ts i scope q → Sound ts i scope q ∧ (scope.kind ≠ .function →
        ts[p.position]?.bind (·.parameters) = none → Head ts i scope q) :=
      fun q hq => ⟨hq, fun _ h => by simp [hk, hparams] at h⟩
    simp only [holds_bind]
    refine holds_enter (fun listed hl => ?_) fun e he => hlate _ hs
    refine (within_holds hm hs hle hlist (.inr rfl) fun _ =>
      enter_ne_function hl (by simp)).mono_good fun _ u hu => ?_
    refine hu.mono_good fun _ v hv => ?_
    refine (captureList_keeps hm v hv).mono (fun _ w hw => ?_) fun _ x hx => hlate x hx.sound
    split
    · rw [holds_bind]
      refine (Keeps.skipTo past_onward _ w hw).mono (fun _ x hx => ?_) fun _ x hx => hlate x hx.sound
      exact (Keeps.bind (.take past_onward none) (fun _ => .pure ()) x hx).mono_bad
        fun _ y hy => hlate y hy.sound
    · cases hbody : keyword.body with
      | none =>
        exact (Keeps.bind (.skipTo past_onward _)
          (fun _ => .bind (.take past_onward none) fun _ => .pure ()) w hw).mono
          (fun _ _ h => h) fun _ y hy => hlate y hy.sound
      | some body =>
        have hopens := hm.body p.position body (by rw [hk]; exact hbody)
        simp only [holds_bind]
        refine holds_enter (fun inside hin => ?_) fun e he => hlate w hw.sound
        exact within_holds hm hw.sound hle hopens (.inl rfl) fun _ => enter_ne_function hin (by simp)

theorem bounds_of_variableNames {constant valued : Bool} {stop : Option Nat} {j n : Nat}
    {named : List (Nat × String)}
    (h : variableNames ts constant stop valued j = some (named, n)) : j ≤ n ∧ n < ts.size := by
  have hlt := ts.lt_pastGroup
  fun_induction variableNames ts constant stop valued j generalizing named with
  | case1 _ j hj =>
    cases h
    exact ⟨Nat.le_refl _, hj.1⟩
  | case6 => cases h
  | case2 _ j | case3 _ j | case4 _ j | case5 _ j =>
    rename_i ih
    obtain ⟨⟨later, m⟩, hlater, heq⟩ := Option.map_eq_some_iff.mp h
    cases heq
    obtain ⟨hle, hn⟩ := ih _ hlater
    exact ⟨Nat.le_trans (Nat.le_of_lt (hlt j)) hle, hn⟩

theorem variableStatement_holds {comment : Option DocComment} (hp : Head ts i scope p)
    (hc : OfFile ts comment) :
    Holds ts (variableStatement scope comment) (fun _ q => Past ts i scope q)
      (fun _ q => Head ts i scope q) p := by
  simp only [variableStatement, holds_bind, holds_read, holds_position, holds_kind?]
  have hkeyword : Holds ts (accept .varKw) (fun _ q => Head ts i scope q)
      (fun _ q => Head ts i scope q) p :=
    holds_accept (fun hk => hp.next (Tokens.lt_size_of_kind? hk)
      (.inr fun k h => by rw [hk] at h; cases h; rfl)) fun _ => hp
  refine hkeyword.mono_good fun _ q hq => ?_
  split
  · exact hq
  · rename_i named stop hnames
    have hle := hq.clear.le
    obtain ⟨hlt, hstop⟩ := bounds_of_variableNames hnames
    have := ts.le_atOrAfter (stop + 1)
    have hend : i < ts.atOrAfter (stop + 1) := by omega
    have hmet := hq.meet (v := .declared (named.map (·.2))) (by simp [Visit.comment?])
    simp only [holds_bind, holds_meet]
    split
    · simp only [holds_bind, holds_meet, holds_jump]
      refine ⟨hend, (hmet.sound.note ?_).move hstop⟩
      exact .visit hc
    · exact ⟨hend, hmet.sound.move hstop⟩

theorem not_isBoundary_of_isModifier {k : Kind} (h : isModifier k = true) :
    isBoundary k = false := by
  cases k <;> first | rfl | cases h

/-- No boundary stands among modifiers, and a `static` that ends them is stepped over. -/
theorem clear_afterModifiers {j : Nat} (h : Clear ts i j) :
    Clear ts i (afterModifiers ts j).1 ∧ j ≤ (afterModifiers ts j).1 ∧
      ((afterModifiers ts j).2 = true → j < (afterModifiers ts j).1) := by
  have hnext : ∀ j (hj : j < ts.size), isModifier ts[j].kind = true → Clear ts i j →
      Clear ts i (ts.next j) := by
    intro j hj hmod h
    refine h.next (.inr fun k hk => ?_)
    obtain rfl := Option.some.inj ((kind?_eq_some (Array.getElem?_eq_getElem hj)).symm.trans hk)
    exact not_isBoundary_of_isModifier hmod
  fun_induction afterModifiers ts j with
  | case1 j hj hmod hlate =>
    exact ⟨hnext j hj hmod h, Nat.le_of_lt (ts.lt_next j), fun _ => ts.lt_next j⟩
  | case2 j hj hmod hlate ih =>
    obtain ⟨hclear, hle, -⟩ := ih (hnext j hj hmod h)
    have := ts.lt_next j
    exact ⟨hclear, by omega, fun _ => by omega⟩
  | case3 | case4 => exact ⟨h, Nat.le_refl _, (by simp)⟩

theorem settled_afterModifiers {j : Nat} (h : ts.Settled j) :
    ts.Settled (afterModifiers ts j).1 := by
  fun_induction afterModifiers ts j with
  | case1 j hj => exact Tokens.settled_next hj
  | case2 j hj hmod hlate ih => exact ih (Tokens.settled_next hj)
  | case3 | case4 => exact h

def DeclaresFunction (ts : Tokens) (i : Nat) : Prop :=
  ∃ t, ts[(afterModifiers ts i).1]? = some t ∧ t.kind.isFunction ∧ t.parameters.isSome

theorem declaration_holds {b : Binder} (hm : ts.Marked) (hp : Head ts i scope p)
    (hi : p.position = i) :
    Holds ts (declaration b scope) (fun _ q => Past ts i scope q)
      (fun _ q => Sound ts i scope q ∧ (scope.kind ≠ .function →
        ¬DeclaresFunction ts i → Head ts i scope q)) p := by
  subst hi
  simp only [declaration, holds_bind, holds_read, holds_position, holds_modify, holds_ite]
  obtain ⟨hclear, hle, hlate⟩ := clear_afterModifiers hp.clear
  have hhead : Head ts p.position scope ⟨(afterModifiers ts p.position).1, p.items⟩ :=
    ⟨hclear, ⟨hp.sound.items, settled_afterModifiers⟩⟩
  have hof : OfFile ts (DocComment.before ts p.position) := fun c => read_of_before
  refine ⟨fun _ => ⟨fun _ => ?_, fun _ => ⟨fun _ => ?_, fun hmoved => ?_⟩⟩, fun hlb => ?_⟩
  · refine (meetWith_holds hhead.sound rfl hof fun _ => rfl).mono_good fun _ q hq => ?_
    have hq' : Head ts p.position scope q := ⟨hq.2 ▸ hclear, hq.1⟩
    refine ⟨fun _ => ?_, fun _ => ⟨fun hfun => ?_, fun _ => ?_⟩⟩
    · exact (classStatement_holds hm hq' hof).mono_bad fun _ _ h => ⟨h.1, fun hk _ => h.2 hk⟩
    · refine (functionStatement_holds hm hq' hof).mono_bad
        fun _ _ h => ⟨h.1, fun hk hnot => h.2 hk ?_⟩
      cases ht : ts[q.position]? with
      | none => rfl
      | some t =>
        rw [Option.bind_some, ← Option.not_isSome_iff_eq_none]
        have hj : q.position = (afterModifiers ts p.position).1 := hq.2
        rw [← hj, kind?_eq_some ht] at hfun
        exact fun hparams => hnot ⟨t, hj ▸ ht, hfun, hparams⟩
    · exact (variableStatement_holds hq' hof).mono_bad fun _ _ h => ⟨h.sound, fun _ _ => h⟩
  · exact holds_take (fun _ ht _ => hhead.past (Tokens.lt_size ht))
      fun _ _ => ⟨hhead.sound, fun _ _ => hhead⟩
  · exact ⟨Nat.lt_of_le_of_ne hle (Ne.symm hmoved), hhead.sound⟩
  · exact ⟨hlate (by simpa using hlb), hhead.sound⟩

theorem declareStatement_holds (hm : ts.Marked) (hp : Head ts i outer p) (hi : p.position = i) :
    Holds ts declareStatement (fun _ q => Past ts i outer q)
      (fun _ q => Head ts i outer q) p := by
  unfold declareStatement
  rw [holds_bind]
  refine holds_take (fun _ ht _ => ?_) fun _ _ => hp
  have hnext := hp.next (Tokens.lt_size ht) (.inl hi)
  have hpast := hp.past (Tokens.lt_size ht)
  rw [holds_bind, holds_kind?]
  split
  · rename_i hparen
    exact (overGroup_holds hm hpast hparen rfl).mono_bad fun _ _ h => h ▸ hnext
  · exact hpast

/-- A statement that looks ahead: an import or a use of traits, or a function with a parameter list.
It may move past a boundary and fail there. -/
def LooksAhead (ts : Tokens) (scope : Scope) (i : Nat) : Prop :=
  (ts.kind? i = some .useKw ∧ importsIn scope.kind = true) ∨ DeclaresFunction ts i

/-- A statement ends after its first token. One that fails has noted regions after its first token
only, and has passed no boundary unless it looks ahead. -/
theorem statement_holds (hm : ts.Marked) (b : Binder) (scope : Scope) (i : Nat) :
    Holds ts (statement b scope) (fun _ q => Past ts i scope q)
      (fun _ q => Sound ts i scope q ∧ (scope.kind ≠ .function →
        ¬LooksAhead ts scope i → Head ts i scope q)) ⟨i, []⟩ := by
  have hp : Head ts i scope ⟨i, []⟩ := ⟨.refl, ⟨(by simp), id⟩⟩
  have hfail : ∀ q, Head ts i scope q → Sound ts i scope q ∧ (scope.kind ≠ .function →
      ¬LooksAhead ts scope i → Head ts i scope q) := fun q h => ⟨h.sound, fun _ _ => h⟩
  unfold statement
  rw [holds_bind]
  refine holds_current (fun t ht => ?_) fun _ => hfail _ hp
  split
  · rename_i hk
    simp only [holds_bind, holds_within, holds_pure]
    refine holds_paired (fun g hg => ?_) fun _ => hfail _ hp
    have hopens := opensFrom_of_group hm ht hg (by rw [hk]; rfl)
    refine holds_take (fun _ _ _ => ?_) fun _ _ => hfail _ hp
    have hlt := Tokens.lt_size ht
    refine holds_enter (fun inner hin => ?_) fun _ _ => hfail _ (hp.next hlt (.inl rfl))
    exact ⟨lt_after_closer hm hopens, .move (hp.sound.note
      (.of_group hm hopens (.inl hk) (ts.lt_next i) (Tokens.settled_next hlt) fun _ =>
        enter_ne_function hin (by simp))) (closer_lt_size hm hopens)⟩
  · exact hfail _ hp
  · exact (namespaceStatement_holds hm hp rfl).mono_bad fun _ _ h => hfail _ h
  · rename_i hk
    refine (useStatement_holds hm hp).mono_bad fun _ _ h =>
      ⟨h.1, fun _ hahead => h.2 ?_⟩
    exact Bool.eq_false_iff.mpr fun himports =>
      hahead (.inl ⟨(kind?_eq_some ht).trans (congrArg some hk), himports⟩)
  · rw [holds_bind]
    exact (declareStatement_holds hm hp rfl).mono_bad fun _ _ h => hfail _ h
  · rename_i hk
    simp only [holds_bind, holds_jump, holds_pure]
    refine holds_paired (fun g hg => ?_) fun _ => hfail _ hp
    have hopens := opensFrom_of_group hm ht hg (by rw [hk]; rfl)
    exact ⟨lt_after_closer hm hopens, hp.sound.move (closer_lt_size hm hopens)⟩
  · split
    · rw [holds_bind]
      exact (declaration_holds hm hp rfl).mono_bad fun _ _ h =>
        ⟨h.1, fun hk hahead => h.2 hk fun hd => hahead (.inr hd)⟩
    · rw [holds_bind]
      exact holds_take (fun _ _ _ => hp.past (Tokens.lt_size ht)) fun _ _ => hfail _ hp

/-- The scope after a statement is of the kind of the scope before it. -/
theorem statement_returns (b : Binder) (scope : Scope) :
    Returns ts (fun next : Scope => next.kind = scope.kind) (statement b scope) := by
  refine .after fun t => ?_
  split
  · exact .after fun _ => .after fun _ => .after fun _ => .after fun _ => .pure rfl
  · exact .fail _
  · refine .after fun _ => .after fun _ => .after fun _ => .after fun k => ?_
    split
    · exact .after fun _ => .pure rfl
    · exact .after fun _ => .after fun _ => .after fun _ => .after fun _ => .pure rfl
    · exact .fail _
  · unfold useStatement
    split
    · exact .after fun _ => .pure rfl
    · exact importStatement_returns
    · exact importStatement_returns
    · exact .fail _
  · exact .after fun _ => .pure rfl
  · exact .after fun _ => .after fun _ => .pure rfl
  · split
    · exact .after fun _ => .pure rfl
    · exact .after fun _ => .pure rfl

end
end PhpDoc.Outline
