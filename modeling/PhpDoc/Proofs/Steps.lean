import PhpDoc.Outline.Step
/-!
What holds after a step of a walk. A condition on the outcome of a step, one for its success and one
for its failure, is a condition on the progress before it; each step has a rule that tells which.
Conditions that steps keep are a case of this.
-/
namespace PhpDoc

def Visit.comment? : Visit → Option DocComment
  | .comment c | .templates _ c | .classDocs _ c => some c
  | .functionDocs _ _ _ c | .variableDocs _ _ _ c _ => c
  | _ => none

namespace Tokens

/-- A position of the walk: a token that matters stands there, or it is the end of the file. -/
structure Settled (ts : Tokens) (i : Nat) : Prop where
  le : i ≤ ts.size
  here : ts.atOrAfter i = i

variable {ts : Tokens} {i : Nat}

theorem settled_atOrAfter (h : i ≤ ts.size) : ts.Settled (ts.atOrAfter i) := by
  fun_induction atOrAfter ts i with
  | case1 i hi htrivia ih => exact ih hi
  | case2 i hi hmatters => exact ⟨h, by rw [atOrAfter, dif_pos hi, if_neg hmatters]⟩
  | case3 i hi => exact ⟨h, by rw [atOrAfter, dif_neg hi]⟩

theorem settled_next (h : i < ts.size) : ts.Settled (ts.next i) :=
  settled_atOrAfter h

theorem lt_size {t : Token} (h : ts[i]? = some t) : i < ts.size :=
  (Array.getElem?_eq_some_iff.mp h).1

theorem lt_size_of_kind? {k : Kind} (h : ts.kind? i = some k) : i < ts.size :=
  have ⟨_, ht, _⟩ := Option.map_eq_some_iff.mp h
  lt_size ht

end Tokens

namespace Outline.Step
variable {α β : Type}

def Holds (ts : Tokens) (s : Step α) (good : α → Progress → Prop)
    (bad : ScanError → Progress → Prop) (p : Progress) : Prop :=
  match ((s.run ts).run).run p with
  | (.ok a, q) => good a q
  | (.error e, q) => bad e q

variable {ts : Tokens} {p : Progress} {good good' : α → Progress → Prop}
  {bad bad' : ScanError → Progress → Prop}

theorem Holds.mono {s : Step α} (h : Holds ts s good bad p) (hg : ∀ a q, good a q → good' a q)
    (hb : ∀ e q, bad e q → bad' e q) : Holds ts s good' bad' p := by
  unfold Holds at h ⊢
  split at h
  · exact hg _ _ h
  · exact hb _ _ h

theorem Holds.mono_good {s : Step α} (h : Holds ts s good bad p)
    (hg : ∀ a q, good a q → good' a q) : Holds ts s good' bad p :=
  h.mono hg fun _ _ hb => hb

theorem Holds.mono_bad {s : Step α} (h : Holds ts s good bad p)
    (hb : ∀ e q, bad e q → bad' e q) : Holds ts s good bad' p :=
  h.mono (fun _ _ hg => hg) hb

theorem holds_true (x : Step α) : Holds ts x (fun _ _ => True) (fun _ _ => True) p := by
  unfold Holds
  split <;> trivial

@[simp]
theorem holds_pure (a : α) : Holds ts (pure a) good bad p ↔ good a p :=
  .rfl

@[simp]
theorem holds_bind (x : Step α) (f : α → Step β) {good : β → Progress → Prop} :
    Holds ts (x >>= f) good bad p ↔ Holds ts x (fun a q => Holds ts (f a) good bad q) bad p := by
  unfold Holds
  simp only [ReaderT.run_bind, ExceptT.run_bind, StateT.run_bind]
  rcases ((x.run ts).run).run p with ⟨_ | _, q⟩ <;> rfl

/-- Steps one after the other, with a condition that holds in between. -/
theorem holds_bind_of (mid : α → Progress → Prop) {x : Step α} {f : α → Step β}
    {good : β → Progress → Prop} (hx : Holds ts x mid bad p)
    (hf : ∀ a q, mid a q → Holds ts (f a) good bad q) : Holds ts (x >>= f) good bad p :=
  (holds_bind x f).mpr (hx.mono hf fun _ _ h => h)

@[simp]
theorem holds_ite {c : Prop} [Decidable c] (x y : Step α) :
    Holds ts (if c then x else y) good bad p ↔
      (c → Holds ts x good bad p) ∧ (¬c → Holds ts y good bad p) := by
  split <;> simp [*]

@[simp]
theorem holds_read {good : Tokens → Progress → Prop} :
    Holds ts read good bad p ↔ good ts p :=
  .rfl

@[simp]
theorem holds_modify (f : Progress → Progress) {good : Unit → Progress → Prop} :
    Holds ts (modify f) good bad p ↔ good () (f p) :=
  .rfl

@[simp]
theorem holds_position {good : Nat → Progress → Prop} :
    Holds ts position good bad p ↔ good p.position p :=
  .rfl

@[simp]
theorem holds_kind? {good : Option Kind → Progress → Prop} :
    Holds ts kind? good bad p ↔ good (ts.kind? p.position) p :=
  .rfl

@[simp]
theorem holds_jump (i : Nat) {good : Unit → Progress → Prop} :
    Holds ts (jump i) good bad p ↔ good () { p with position := ts.atOrAfter i } :=
  .rfl

@[simp]
theorem holds_meet (v : Visit) {good : Unit → Progress → Prop} :
    Holds ts (meet v) good bad p ↔ good () { p with items := p.items ++ [.visit v] } :=
  .rfl

@[simp]
theorem holds_within (scope : Scope) (stop : Nat) {good : Unit → Progress → Prop} :
    Holds ts (within scope stop) good bad p ↔
      good () ⟨ts.atOrAfter (stop + 1), p.items ++ [.region scope p.position stop]⟩ :=
  .rfl

@[simp]
theorem holds_fail (fault : ScanFault) :
    Holds ts (fail fault : Step α) good bad p ↔ bad ⟨fault, some p.position⟩ p :=
  .rfl

theorem holds_current {good : Token → Progress → Prop}
    (hgood : ∀ t, ts[p.position]? = some t → good t p)
    (hbad : ts[p.position]? = none → bad ⟨.endOfFile, none⟩ p) :
    Holds ts current good bad p := by
  simp only [current, holds_bind, holds_read, holds_position]
  cases h : ts[p.position]? with
  | none => exact hbad h
  | some t => exact hgood t h

theorem holds_take {good : Token → Progress → Prop} {expected : Option Kind}
    (hgood : ∀ t, ts[p.position]? = some t → (∀ k, expected = some k → t.kind = k) →
      good t { p with position := ts.next p.position })
    (hbad : ∀ e, ts.advance p.position expected = .error e → bad e p) :
    Holds ts (take expected) good bad p := by
  simp only [take, holds_bind, holds_read, holds_position]
  cases h : ts.advance p.position expected with
  | error e => exact hbad e h
  | ok r =>
    obtain ⟨t, i⟩ := r
    unfold Tokens.advance at h
    split at h
    · cases h
    · rename_i u hu
      split at h
      · cases h
        exact hgood t hu (by simp)
      · split at h
        · rename_i hk
          cases h
          exact hgood t hu (by rintro k ⟨⟩; exact hk)
        · cases h

theorem holds_accept {good : Bool → Progress → Prop} {k : Kind}
    (htaken : ts.kind? p.position = some k →
      good true { p with position := ts.next p.position })
    (hleft : ts.kind? p.position ≠ some k → good false p) :
    Holds ts (accept k) good bad p := by
  simp only [accept, holds_bind, holds_kind?, holds_ite, holds_pure]
  refine ⟨fun h => holds_take (fun _ _ _ => htaken h) fun e he => ?_, hleft⟩
  obtain ⟨t, ht, -⟩ := Option.map_eq_some_iff.mp h
  simp [Tokens.advance, ht] at he

theorem holds_meetWith {visit : DocComment → Visit} {c : Option DocComment}
    {good : Unit → Progress → Prop}
    (hsome : ∀ d, c = some d → good () { p with items := p.items ++ [.visit (visit d)] })
    (hnone : c = none → good () p) : Holds ts (meetWith visit c) good bad p := by
  cases c with
  | none => exact hnone rfl
  | some d => exact hsome d rfl

theorem holds_withinGroup {scope : Scope} {g : Option Group} {good : Unit → Progress → Prop}
    (hsome : ∀ x, g = some x →
      good () ⟨ts.atOrAfter (x.closer + 1),
        p.items ++ [.region scope (ts.atOrAfter (x.opener + 1)) x.closer]⟩)
    (hnone : g = none → good () p) : Holds ts (withinGroup scope g) good bad p := by
  cases g with
  | none => exact hnone rfl
  | some x => exact hsome x rfl

theorem holds_paired {g : Option Group} {good : Group → Progress → Prop}
    (hgood : ∀ x, g = some x → good x p)
    (hbad : g = none → bad ⟨.unbalanced, some p.position⟩ p) :
    Holds ts (paired g) good bad p := by
  cases g with
  | none => exact hbad rfl
  | some x => exact hgood x rfl

theorem holds_enter {scope : Scope} {r : Region} {good : Scope → Progress → Prop}
    (hgood : ∀ inner, scope.enter r = .ok inner → good inner p)
    (hbad : ∀ e, scope.enter r = .error e → bad e p) :
    Holds ts (enter scope r) good bad p := by
  unfold enter
  cases h : scope.enter r with
  | error e => exact hbad e h
  | ok inner => exact hgood inner h

theorem le_seek (ts : Tokens) (kinds : List Kind) (i : Nat) : i ≤ seek ts kinds i := by
  fun_induction seek ts kinds i with
  | case1 | case3 => exact Nat.le_refl _
  | case2 i hi hk ih => exact Nat.le_trans (Nat.le_of_lt (ts.lt_next i)) ih

theorem settled_seek {i : Nat} (kinds : List Kind) (h : ts.Settled i) :
    ts.Settled (seek ts kinds i) := by
  fun_induction seek ts kinds i with
  | case1 | case3 => exact h
  | case2 i hi hk ih => exact ih (Tokens.settled_next hi)

theorem kind_seek {ts : Tokens} {kinds : List Kind} {i : Nat} {t : Token}
    (h : ts[seek ts kinds i]? = some t) : kinds.contains t.kind = true := by
  fun_induction seek ts kinds i with
  | case1 i hi hk =>
    rw [Array.getElem?_eq_getElem hi] at h
    cases h
    exact hk
  | case2 i hi hk ih => exact ih h
  | case3 i hi => simp [hi] at h

theorem holds_skipTo {kinds : List Kind} {good : Unit → Progress → Prop}
    (hgood : ∀ t, ts[seek ts kinds p.position]? = some t → kinds.contains t.kind = true →
      good () { p with position := seek ts kinds p.position })
    (hbad : bad ⟨.endOfFile, none⟩ { p with position := seek ts kinds p.position }) :
    Holds ts (skipTo kinds) good bad p := by
  simp only [skipTo, holds_bind, holds_read, holds_position, holds_modify]
  split
  · exact hbad
  · rename_i hlt
    have hget := Array.getElem?_eq_getElem (Nat.lt_of_not_le hlt)
    exact hgood _ hget (kind_seek hget)

def Returns (ts : Tokens) (P : α → Prop) (s : Step α) : Prop :=
  ∀ p, Holds ts s (fun a _ => P a) (fun _ _ => True) p

namespace Returns
variable {P : α → Prop}

theorem pure {a : α} (h : P a) : Returns ts P (Pure.pure a) :=
  fun _ => h

theorem fail (fault : ScanFault) : Returns ts P (Step.fail fault) :=
  fun _ => trivial

theorem throw (e : ScanError) : Returns ts P (MonadExcept.throw e : Step α) :=
  fun _ => trivial

theorem bind {Q : β → Prop} {x : Step α} {f : α → Step β} (hx : Returns ts P x)
    (hf : ∀ a, P a → Returns ts Q (f a)) : Returns ts Q (x >>= f) :=
  fun p => holds_bind_of _ (hx p) fun a q ha => hf a ha q

theorem after {Q : β → Prop} {x : Step α} {f : α → Step β} (hf : ∀ a, Returns ts Q (f a)) :
    Returns ts Q (x >>= f) :=
  bind (P := fun _ => True) (fun _ => holds_true x) fun a _ => hf a

end Returns

def Same (ts : Tokens) (s s' : Step α) (p : Progress) : Prop :=
  ((s.run ts).run).run p = ((s'.run ts).run).run p

/-- Steps that begin with the same step, and go on to the same where that one ends well. -/
theorem Same.bind {mid : α → Progress → Prop} {x y : Step α} {f g : α → Step β}
    (h : Same ts x y p) (hx : Holds ts x mid (fun _ _ => True) p)
    (hfg : ∀ a q, mid a q → Same ts (f a) (g a) q) : Same ts (x >>= f) (y >>= g) p := by
  unfold Same at h ⊢
  unfold Holds at hx
  simp only [ReaderT.run_bind, ExceptT.run_bind, StateT.run_bind, ← h]
  rcases hrun : ((x.run ts).run).run p with ⟨e | a, q⟩
  · rfl
  · rw [hrun] at hx
    exact hfg a q hx

theorem run_bind_ok {x : Step α} {f : α → Step β} {a : α} {q : Progress}
    (h : ((x.run ts).run).run p = (.ok a, q)) :
    (((x >>= f).run ts).run).run p = (((f a).run ts).run).run q := by
  simp only [ReaderT.run_bind, ExceptT.run_bind, StateT.run_bind, h]
  rfl

theorem run_read : (((read : Step Tokens).run ts).run).run p = (.ok ts, p) :=
  rfl

theorem run_position : ((position.run ts).run).run p = (.ok p.position, p) :=
  rfl

theorem run_current {t : Token} (h : ts[p.position]? = some t) :
    ((current.run ts).run).run p = (.ok t, p) := by
  rw [current, run_bind_ok run_read, run_bind_ok run_position, h]
  rfl

/-- A condition on progress that survives moving on and meeting something without a comment. -/
structure Onward (ts : Tokens) (I : Progress → Prop) : Prop where
  move : ∀ p j, I p → p.position ≤ j → (ts.Settled p.position → ts.Settled j) →
    I { p with position := j }
  meet : ∀ p v, I p → v.comment? = none → I { p with items := p.items ++ [.visit v] }

def Keeps (ts : Tokens) (I : Progress → Prop) (s : Step α) : Prop :=
  ∀ p, I p → Holds ts s (fun _ q => I q) (fun _ q => I q) p

namespace Keeps
variable {I : Progress → Prop}

theorem pure (a : α) : Keeps ts I (Pure.pure a) :=
  fun _ h => h

theorem throw (e : ScanError) : Keeps ts I (MonadExcept.throw e : Step α) :=
  fun _ h => h

theorem fail (fault : ScanFault) : Keeps ts I (Step.fail fault : Step α) :=
  fun _ h => h

theorem kind? : Keeps ts I Step.kind? :=
  fun _ h => h

theorem read : Keeps ts I (MonadReader.read : Step Tokens) :=
  fun _ h => h

theorem bind {x : Step α} {f : α → Step β} (hx : Keeps ts I x) (hf : ∀ a, Keeps ts I (f a)) :
    Keeps ts I (x >>= f) :=
  fun p hp => holds_bind_of _ (hx p hp) fun a q hq => hf a q hq

theorem of_ok {s : Step α} (h : Keeps ts I s) (hp : I p) :
    Holds ts s (fun _ q => I q) (fun _ _ => True) p :=
  (h p hp).mono (fun _ _ hq => hq) fun _ _ _ => trivial

theorem take (hI : Onward ts I) (expected : Option Kind) : Keeps ts I (Step.take expected) :=
  fun _ h => holds_take
    (fun _ ht _ => hI.move _ _ h (Nat.le_of_lt (ts.lt_next _)) fun _ =>
      Tokens.settled_next (Tokens.lt_size ht)) fun _ _ => h

theorem accept (hI : Onward ts I) (k : Kind) : Keeps ts I (Step.accept k) :=
  fun _ h => holds_accept
    (fun hk => hI.move _ _ h (Nat.le_of_lt (ts.lt_next _)) fun _ =>
      Tokens.settled_next (Tokens.lt_size_of_kind? hk)) fun _ => h

theorem meet (hI : Onward ts I) {v : Visit} (hv : v.comment? = none) : Keeps ts I (Step.meet v) :=
  fun _ h => hI.meet _ _ h hv

theorem skipTo (hI : Onward ts I) (kinds : List Kind) : Keeps ts I (Step.skipTo kinds) := by
  intro p h
  have hmoved := hI.move _ _ h (le_seek ts kinds p.position) (settled_seek kinds)
  exact holds_skipTo (fun _ _ _ => hmoved) hmoved

end Keeps
end Outline.Step
end PhpDoc
