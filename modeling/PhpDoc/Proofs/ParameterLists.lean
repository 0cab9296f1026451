import Mathlib.Data.List.Forall2
import Mathlib.Data.List.ReduceOption
import PhpDoc.Declaration.Parameter
import PhpDoc.Proofs.FunctionNames
import PhpDoc.Proofs.Nesting
/-!
Parameter lists. A list is cut at the commas that are in no bracket pair nested in it, and each
piece with a variable outside of such pairs is one parameter, told by the tokens outside of them.
-/
namespace PhpDoc
namespace Tokens

/-- An index inside of a pair of brackets and in no pair that is nested in it. -/
structure Outermost (ts : Tokens) (g : Group) (n : Nat) : Prop where
  after : g.opener < n
  before : n < g.closer
  apart : ∀ b, ts.Pairs b → b.Within g → ¬(b.opener < n ∧ n ≤ b.closer)

structure FirstOutermost (ts : Tokens) (g : Group) (a b : Nat) (P : Nat → Prop) (n : Nat) :
    Prop where
  ge : a ≤ n
  lt : n < b
  outermost : ts.Outermost g n
  holds : P n
  least : ∀ m, a ≤ m → m < n → ts.Outermost g m → ¬P m

structure ScansTo (ts : Tokens) (g : Group) (i : Nat) : Prop where
  level : ts.Level (g.opener + 1) i
  le : i ≤ g.closer

structure Scannable (ts : Tokens) (g : Group) : Prop where
  grouped : ts.Grouped
  pairs : ∀ i b, ts.group? i = some b → ts.Pairs b
  pair : ts.Pairs g
  pastGroup : ∀ n, g.opener < n → n < g.closer → ts.pastGroup n = past n (ts.group? n)

def first? (ts : Tokens) (stop : Nat) (P : Nat → Prop) [DecidablePred P] (i : Nat) : Option Nat :=
  if i < ts.size ∧ i < stop then
    if P i then some i else first? ts stop P (ts.pastGroup i)
  else none
termination_by ts.size - i
decreasing_by
  have := lt_pastGroup ts i
  omega

variable {ts : Tokens} {g : Group} {P Q : Nat → Prop} {a b f i m n stop v : Nat} {k : Kind}

theorem FirstOutermost.unique (h : ts.FirstOutermost g a b P n) (h' : ts.FirstOutermost g a b P m) :
    n = m := by
  rcases Nat.lt_trichotomy n m with hlt | heq | hgt
  · exact absurd h.holds (h'.least n h.ge hlt h.outermost)
  · exact heq
  · exact absurd h'.holds (h.least m h'.ge hgt h'.outermost)

/-- What stands before a parameter does not count for what is not before it. -/
theorem FirstOutermost.skip (hf : ts.FirstOutermost g a b (¬P ·) f) (hp : ∀ n, P n → ¬Q n) :
    ts.FirstOutermost g f b Q n ↔ ts.FirstOutermost g a b Q n := by
  constructor
  · rintro ⟨hge, hlt, ho, hq, hleast⟩
    refine ⟨Nat.le_trans hf.ge hge, hlt, ho, hq, fun m hle hm hom => ?_⟩
    rcases Nat.lt_or_ge m f with hmf | hmf
    · exact hp m (not_not.mp (hf.least m hle hmf hom))
    · exact hleast m hmf hm hom
  · rintro ⟨hge, hlt, ho, hq, hleast⟩
    refine ⟨Nat.le_of_not_lt fun hn => ?_, hlt, ho, hq, fun m hle => hleast m ?_⟩
    · exact hp n (not_not.mp (hf.least n hge hn ho)) hq
    · exact Nat.le_trans hf.ge hle

theorem FirstOutermost.exists_skip (hf : ts.FirstOutermost g a b (¬P ·) f)
    (hp : ∀ n, P n → ¬Q n) : (∃ n, f ≤ n ∧ n < v ∧ ts.Outermost g n ∧ Q n) ↔
      ∃ n, a ≤ n ∧ n < v ∧ ts.Outermost g n ∧ Q n := by
  constructor
  · rintro ⟨n, hle, hn⟩
    exact ⟨n, Nat.le_trans hf.ge hle, hn⟩
  · rintro ⟨n, hle, hlt, ho, hq⟩
    exact ⟨n, Nat.le_of_not_lt fun hnf => hp n (not_not.mp (hf.least n hle hnf ho)) hq, hlt, ho, hq⟩

namespace Scannable
variable [DecidablePred P] [DecidablePred Q]

theorem outermost_iff (h : ts.Scannable g) :
    ts.Outermost g n ↔ ts.Level (g.opener + 1) n ∧ n < g.closer := by
  constructor
  · intro ho
    refine ⟨⟨ho.after, fun b hb hle hlt => ?_⟩, ho.before⟩
    have hin := h.grouped.within_of_opener h.pair hb hle (Nat.lt_trans hlt ho.before)
    exact Nat.lt_of_not_le fun hn => ho.apart b hb hin ⟨hlt, hn⟩
  · rintro ⟨hl, hlt⟩
    refine ⟨hl.le, hlt, fun b hb hin ho => ?_⟩
    exact Nat.lt_irrefl _ (Nat.lt_of_lt_of_le (hl.closed b hb hin.1 ho.1) ho.2)

theorem scansTo_start (h : ts.Scannable g) : ts.ScansTo g (g.opener + 1) :=
  ⟨ts.level_self _, h.pair.joins.lt⟩

theorem scansTo_of_outermost (h : ts.Scannable g) (ho : ts.Outermost g n) : ts.ScansTo g n :=
  ⟨(h.outermost_iff.mp ho).1, Nat.le_of_lt ho.before⟩

theorem outermost_of_scansTo (h : ts.Scannable g) (hi : ts.ScansTo g i) (hlt : i < g.closer) :
    ts.Outermost g i :=
  h.outermost_iff.mpr ⟨hi.level, hlt⟩

theorem lt_size (h : ts.Scannable g) (hn : n ≤ g.closer) : n < ts.size := by
  obtain ⟨_, _, -, hk, -⟩ := h.pair.joins.kinds
  exact Nat.lt_of_le_of_lt hn (lt_size_of_kind? hk)

/-- Going past a group skips what is in nested pairs, and nothing else. -/
theorem step (h : ts.Scannable g) (hi : ts.Outermost g i) : ts.ScansTo g (ts.pastGroup i) ∧
    ∀ m, i < m → m < ts.pastGroup i → ¬ts.Outermost g m := by
  have hlevel : ∀ {j}, ts.Level i j ↔ j = i ∨ ts.Level (ts.pastGroup i) j := by
    rw [h.pastGroup i hi.after hi.before]
    exact h.grouped.level_past_iff (h.pairs i)
  have hstart := (h.outermost_iff.mp hi).1
  have hclosed := (hlevel.mp (h.grouped.level_closer h.pair hi.after
    (Nat.le_of_lt hi.before))).resolve_left (Nat.ne_of_gt hi.before)
  refine ⟨⟨⟨Nat.le_trans hi.after (Nat.le_of_lt (lt_pastGroup ts i)), fun b hb hle hlt => ?_⟩,
    hclosed.le⟩, fun m him hm ho => ?_⟩
  · rcases Nat.lt_or_ge b.opener i with hbefore | hafter
    · exact Nat.lt_trans (hstart.closed b hb hle hbefore) (lt_pastGroup ts i)
    · exact (hlevel.mpr (.inr (ts.level_self _))).closed b hb hafter hlt
  · have hm' := hlevel.mp ((h.outermost_iff.mp ho).1.of_le hi.after (Nat.le_of_lt him))
    exact absurd (hm'.resolve_left (Nat.ne_of_gt him)).le (Nat.not_le.mpr hm)

theorem pastGroup_eq_succ (h : ts.Scannable g) (hi : ts.Outermost g i) (hk : ts.kind? i = some k)
    (hplain : k.isBracket = false) : ts.pastGroup i = i + 1 := by
  have hnone : ts.group? i = none := by
    refine Option.eq_none_iff_forall_ne_some.mpr fun b hb => ?_
    obtain ⟨hj, hopens⟩ := h.grouped.joins i b hb
    obtain ⟨k₁, k₂, hk₁, hk₂, hc⟩ := hj.kinds
    rcases hopens with rfl | rfl
    · obtain rfl := Option.some.inj (hk.symm.trans hk₁)
      simp [Kind.isBracket, hc] at hplain
    · obtain rfl := Option.some.inj (hk.symm.trans hk₂)
      have hcloser : k.isCloser = true := by cases k₁ <;> cases hc <;> rfl
      simp [Kind.isBracket, hcloser] at hplain
  rw [h.pastGroup i hi.after hi.before, hnone, past]

/-- A scan finds the first index with the property. -/
theorem first?_spec (h : ts.Scannable g) (hi : ts.ScansTo g i) (hstop : stop ≤ g.closer) :
    (∀ n, ts.first? stop P i = some n → ts.FirstOutermost g i stop P n) ∧
      (ts.first? stop P i = none → ∀ n, i ≤ n → n < stop → ts.Outermost g n → ¬P n) := by
  fun_induction first? ts stop P i with
  | case1 i hlt hp =>
    refine ⟨?_, nofun⟩
    rintro n ⟨⟩
    exact ⟨Nat.le_refl _, hlt.2, h.outermost_of_scansTo hi (Nat.lt_of_lt_of_le hlt.2 hstop), hp,
      fun m hle hm => absurd hle (Nat.not_le.mpr hm)⟩
  | case2 i hlt hp ih =>
    have ho := h.outermost_of_scansTo hi (Nat.lt_of_lt_of_le hlt.2 hstop)
    obtain ⟨hscan, hskip⟩ := h.step ho
    have hbefore : ∀ m, i ≤ m → m < ts.pastGroup i → ts.Outermost g m → ¬P m := by
      intro m hle hm hom
      rcases Nat.eq_or_lt_of_le hle with rfl | him
      · exact hp
      · exact absurd hom (hskip m him hm)
    obtain ⟨hsome, hnone⟩ := ih hscan
    refine ⟨fun n hn => ?_, fun hn m hle hm hom => ?_⟩
    · obtain ⟨hge, hn', hon, hpn, hleast⟩ := hsome n hn
      refine ⟨Nat.le_trans (Nat.le_of_lt (lt_pastGroup ts i)) hge, hn', hon, hpn, ?_⟩
      intro m hle hm
      rcases Nat.lt_or_ge m (ts.pastGroup i) with hin | hout
      · exact hbefore m hle hin
      · exact hleast m hout hm
    · rcases Nat.lt_or_ge m (ts.pastGroup i) with hin | hout
      · exact hbefore m hle hin hom
      · exact hnone hn m hout hm hom
  | case3 i hlt =>
    refine ⟨nofun, fun _ n hle hn => absurd ⟨h.lt_size ?_, ?_⟩ hlt⟩ <;> omega

theorem first?_eq_some_iff (h : ts.Scannable g) (hi : ts.ScansTo g i) (hstop : stop ≤ g.closer) :
    ts.first? stop P i = some n ↔ ts.FirstOutermost g i stop P n := by
  refine ⟨(h.first?_spec hi hstop).1 n, fun hn => ?_⟩
  cases hf : ts.first? stop P i with
  | none => exact absurd hn.holds ((h.first?_spec hi hstop).2 hf n hn.ge hn.lt hn.outermost)
  | some m => rw [((h.first?_spec hi hstop).1 m hf).unique hn]

/-- What comes before the first index with one property is found by a scan for either of two. -/
theorem any_first?_iff (h : ts.Scannable g) (hi : ts.ScansTo g i) (hstop : stop ≤ g.closer)
    (hv : ts.FirstOutermost g i stop P v) (hapart : ¬Q v) :
    (ts.first? stop (fun n => P n ∨ Q n) i).any Q = true ↔
      ∃ n, i ≤ n ∧ n < v ∧ ts.Outermost g n ∧ Q n := by
  constructor
  · intro hany
    obtain ⟨n, hn, hq⟩ := (Option.any_eq_true ..).mp hany
    have hfirst := (h.first?_eq_some_iff hi hstop).mp hn
    refine ⟨n, hfirst.ge, ?_, hfirst.outermost, by simpa using hq⟩
    rcases Nat.lt_trichotomy n v with hlt | rfl | hgt
    · exact hlt
    · exact absurd (by simpa using hq) hapart
    · exact absurd (.inl hv.holds) (hfirst.least v hv.ge hgt hv.outermost)
  · rintro ⟨n, hle, hlt, ho, hq⟩
    cases hf : ts.first? stop (fun n => P n ∨ Q n) i with
    | none =>
      exact absurd (.inr hq) ((h.first?_spec hi hstop).2 hf n hle (Nat.lt_trans hlt hv.lt) ho)
    | some m =>
      have hfirst := (h.first?_eq_some_iff hi hstop).mp hf
      have hmn : m ≤ n := Nat.le_of_not_lt fun hnm => hfirst.least n hle hnm ho (.inr hq)
      have hp := hv.least m hfirst.ge (Nat.lt_of_le_of_lt hmn hlt) hfirst.outermost
      simpa using hfirst.holds.resolve_left hp

end Scannable

section
variable [DecidablePred P]

theorem first?_of_lt (hi : i < ts.size) (hlt : i < stop) :
    ts.first? stop P i = if P i then some i else ts.first? stop P (ts.pastGroup i) := by
  rw [first?, if_pos ⟨hi, hlt⟩]

theorem first?_of_not_lt (hi : ¬(i < ts.size ∧ i < stop)) : ts.first? stop P i = none := by
  rw [first?, if_neg hi]

end

end Tokens

namespace Parameter
open Tokens

def Leads (ts : Tokens) (n : Nat) : Prop :=
  ∃ k, ts.kind? n = some k ∧ (k.isFiller || k == .attributeOpen || isPromotion k) = true

def Refers (ts : Tokens) (n : Nat) : Prop :=
  ts.kind? n = some .ampersand ∧
    ∃ m, ts.NextSolid n m ∧ (ts.kind? m = some .variable ∨ ts.kind? m = some .ellipsis)

def EndsType (ts : Tokens) (n : Nat) : Prop :=
  ts.kind? n = some .variable ∨ ts.kind? n = some .ellipsis ∨ Refers ts n

variable {ts : Tokens} {g : Group} {a b i n stop : Nat}

theorem refers_iff :
    Refers ts n ↔ ts.kind? n = some .ampersand ∧ refersToVariable ts n = true := by
  refine and_congr_right fun _ => ?_
  unfold refersToVariable
  constructor
  · rintro ⟨m, hm, hk | hk⟩ <;> simp [solid?_succ_eq_some_iff.mpr hm, hk]
  · intro h
    split at h
    · next hk =>
      obtain ⟨m, hm, hk⟩ := Option.bind_eq_some_iff.mp hk
      exact ⟨m, solid?_succ_eq_some_iff.mp hm, .inl hk⟩
    · next hk =>
      obtain ⟨m, hm, hk⟩ := Option.bind_eq_some_iff.mp hk
      exact ⟨m, solid?_succ_eq_some_iff.mp hm, .inr hk⟩
    · cases h

instance : DecidablePred (Refers ts) := fun _ => decidable_of_iff _ refers_iff.symm

instance : DecidablePred (EndsType ts) := fun _ => inferInstanceAs (Decidable (_ ∨ _))

instance : DecidablePred (Leads ts) := fun n =>
  decidable_of_iff ((ts.kind? n).any fun k => k.isFiller || k == .attributeOpen || isPromotion k)
    (Option.any_eq_true ..)

theorem kind?_of_lt (hi : i < ts.size) : ts.kind? i = some ts[i].kind := by
  simp [kind?, hi]

theorem leads_iff (hi : i < ts.size) :
    Leads ts i ↔ ts[i].kind = .attributeOpen ∨
      (isPromotion ts[i].kind || ts[i].kind.isFiller) = true := by
  simp only [Leads, kind?_of_lt hi, Option.some.injEq, exists_eq_left', Bool.or_eq_true, beq_iff_eq]
  tauto

theorem start?_eq (h : ts.Scannable g) (hi : ts.ScansTo g i) (hstop : stop ≤ g.closer) :
    start? ts stop i = ts.first? stop (¬Leads ts ·) i := by
  fun_induction start? ts stop i with
  | case1 i hsize hle => rw [first?_of_not_lt (by omega)]
  | case2 i hsize hlt hk ih =>
    have ho := h.outermost_of_scansTo hi (by omega)
    rw [first?_of_lt hsize (by omega), if_neg (not_not.mpr ((leads_iff hsize).mpr (.inl hk)))]
    exact ih (h.step ho).1
  | case3 i hsize hlt hk hlead ih =>
    have ho := h.outermost_of_scansTo hi (by omega)
    have hplain : ts[i].kind.isBracket = false := by
      revert hlead
      cases ts[i].kind <;> decide
    have hnext := h.pastGroup_eq_succ ho (kind?_of_lt hsize) hplain
    rw [first?_of_lt hsize (by omega), if_neg (not_not.mpr ((leads_iff hsize).mpr (.inr hlead))),
      hnext]
    exact ih (hnext ▸ (h.step ho).1)
  | case4 i hsize hlt hk hlead =>
    rw [first?_of_lt hsize (by omega), if_pos ((leads_iff hsize).not.mpr (not_or.mpr ⟨hk, hlead⟩))]
  | case5 i hsize => rw [first?_of_not_lt fun hlt => hsize hlt.1]

/-- After the variable only the start of the default value is looked for. -/
theorem look_of_variable {s : Seen} (hv : s.variableAt.isSome) (hd : s.defaultAt = none) :
    look ts stop i s =
      { s with defaultAt := (ts.first? stop (ts.kind? · = some .equal) i).map (· + 1) } := by
  fun_induction look ts stop i s with
  | case1 | case2 | case3 => simp_all
  | case4 i s hi v hk =>
    rw [first?_of_lt hi.1 hi.2, if_pos (by rw [kind?_of_lt hi.1, hk])]
    rfl
  | case5 i s hi _ _ _ hplain ih =>
    obtain ⟨v, hv'⟩ := Option.isSome_iff_exists.mp hv
    have hk : ts.kind? i ≠ some .equal := by simpa [kind?_of_lt hi.1] using hplain v hv'
    rw [first?_of_lt hi.1 hi.2, if_neg hk]
    exact ih hv hd
  | case6 i s hi =>
    rw [first?_of_not_lt hi, Option.map_none, ← hd]

/-- What has been seen of a parameter, by the first tokens of a kind. -/
theorem look_eq {s : Seen} (hv : s.variableAt = none) (hd : s.defaultAt = none) :
    look ts stop i s = {
      typeEnd := s.typeEnd <|> ts.first? stop (EndsType ts) i
      byReference := s.byReference ||
        (ts.first? stop (fun n => ts.kind? n = some .variable ∨ Refers ts n) i).any (Refers ts ·)
      variadic := s.variadic ||
        (ts.first? stop (fun n => ts.kind? n = some .variable ∨ ts.kind? n = some .ellipsis)
          i).any (ts.kind? · = some .ellipsis)
      variableAt := ts.first? stop (ts.kind? · = some .variable) i
      defaultAt := (ts.first? stop (ts.kind? · = some .variable) i).bind fun v =>
        (ts.first? stop (ts.kind? · = some .equal) (ts.pastGroup v)).map (· + 1) } := by
  fun_induction look ts stop i s with
  | case1 i s hi sign hk =>
    have hkind : ts.kind? i = some .variable := (kind?_of_lt hi.1).trans (congrArg some hk)
    refine (look_of_variable (s := { sign s with variableAt := some i }) rfl hd).trans ?_
    simp [first?_of_lt hi.1 hi.2, hkind, refers_iff, EndsType, sign]
  | case2 i s hi sign hk hv' ih =>
    have hkind : ts.kind? i = some .ampersand := (kind?_of_lt hi.1).trans (congrArg some hk)
    cases hrefers : refersToVariable ts i <;> rw [hrefers] at ih <;>
      refine (ih hv hd).trans ?_ <;>
      simp [first?_of_lt hi.1 hi.2, hkind, refers_iff, EndsType, hrefers, sign]
  | case3 i s hi sign hk hv' ih =>
    have hkind : ts.kind? i = some .ellipsis := (kind?_of_lt hi.1).trans (congrArg some hk)
    rw [ih hv hd]
    simp [first?_of_lt hi.1 hi.2, hkind, refers_iff, EndsType, sign]
  | case4 => simp_all
  | case5 i s hi hvariable hamp hellipsis _ ih =>
    have hkind := kind?_of_lt hi.1
    have hnone : ts[i].kind ≠ .variable ∧ ts[i].kind ≠ .ampersand ∧ ts[i].kind ≠ .ellipsis :=
      ⟨hvariable hv, hamp hv, hellipsis hv⟩
    rw [ih hv hd]
    simp [first?_of_lt hi.1 hi.2, hkind, refers_iff, EndsType, hnone]
  | case6 i s hi =>
    obtain ⟨⟩ := s
    obtain ⟨rfl, rfl⟩ := And.intro hv hd
    simp [first?_of_not_lt hi]

/-- A parameter is what one piece of a list shows outside of nested pairs: its variable is the first
one there, its text begins behind what may stand before it, its type ends at the first sign in front
of the variable or at the variable, and its default value begins after the first `=` behind it. -/
structure Describes (ts : Tokens) (g : Group) (a b : Nat) (p : Parameter) : Prop where
  place : ts.FirstOutermost g a b (ts.kind? · = some .variable) p.place
  name : ts[p.place]?.map (·.text) = some p.name
  text : ∃ f e, ts.FirstOutermost g a b (¬Leads ts ·) f ∧ ts.FirstOutermost g a b (EndsType ts) e ∧
    p.content = ts.textOf f b ∧ p.typeHint = ts.textOf f e
  variadic : p.variadic = true ↔
    ∃ n, a ≤ n ∧ n < p.place ∧ ts.Outermost g n ∧ ts.kind? n = some .ellipsis
  byReference : p.byReference = true ↔
    ∃ n, a ≤ n ∧ n < p.place ∧ ts.Outermost g n ∧ Refers ts n
  default : ∀ d, p.defaultText = some d ↔
    ∃ e, ts.FirstOutermost g (p.place + 1) b (ts.kind? · = some .equal) e ∧
      ts.textOf (e + 1) b = d

def Entry (ts : Tokens) (g : Group) (a b : Nat) : Option Parameter → Prop
  | some p => Describes ts g a b p
  | none => ∀ n, a ≤ n → n < b → ts.Outermost g n → ts.kind? n ≠ some .variable

theorem not_leads_of_kind {k : Kind} (hk : ts.kind? n = some k)
    (hlead : (k.isFiller || k == .attributeOpen || isPromotion k) = false) : ¬Leads ts n := by
  rintro ⟨k', hk', hlead'⟩
  obtain rfl := Option.some.inj (hk.symm.trans hk')
  rw [hlead] at hlead'
  cases hlead'

theorem not_leads_of_endsType (h : EndsType ts n) : ¬Leads ts n := by
  rcases h with hk | hk | ⟨hk, -⟩ <;> exact not_leads_of_kind hk rfl

/-- What a piece shows is read as its parameter. -/
theorem entry_read? (h : ts.Scannable g) (ha : ts.ScansTo g a) (hb : b ≤ g.closer) :
    Entry ts g a b (read? ts a b) := by
  have hstart := start?_eq h ha hb
  unfold read?
  cases hf : start? ts b a with
  | none =>
    rw [hf] at hstart
    intro n hle hlt ho hk
    exact (h.first?_spec ha hb).2 hstart.symm n hle hlt ho (not_leads_of_endsType (.inl hk))
  | some f =>
    rw [hf] at hstart
    have hfirst := (h.first?_eq_some_iff ha hb).mp hstart.symm
    have hscan := h.scansTo_of_outermost hfirst.outermost
    have hends : ∀ n, Leads ts n → ¬EndsType ts n := fun n hl he => not_leads_of_endsType he hl
    have hvariable : ∀ n, Leads ts n → ts.kind? n ≠ some .variable := fun n hl hk =>
      hends n hl (.inl hk)
    have hseen : look ts b f {} = _ := look_eq rfl rfl
    cases hv : ts.first? b (ts.kind? · = some .variable) f with
    | none =>
      simp only [Option.bind_eq_bind, Option.bind_some, hseen, hv, Option.bind_none]
      intro n hle hlt ho hk
      rcases Nat.lt_or_ge n f with hn | hn
      · exact hvariable n (not_not.mp (hfirst.least n hle hn ho)) hk
      · exact (h.first?_spec hscan hb).2 hv n hn hlt ho hk
    | some v =>
      have hplace := (h.first?_eq_some_iff hscan hb).mp hv
      have hk : ts.kind? v = some .variable := hplace.holds
      obtain ⟨t, ht, -⟩ := Option.map_eq_some_iff.mp hk
      have hnext := h.pastGroup_eq_succ hplace.outermost hk rfl
      obtain ⟨e, he⟩ : ∃ e, ts.first? b (EndsType ts) f = some e := by
        refine Option.ne_none_iff_exists'.mp fun hnone => ?_
        exact (h.first?_spec hscan hb).2 hnone v hplace.ge hplace.lt hplace.outermost (.inl hk)
      simp only [Option.bind_eq_bind, Option.bind_some, hseen, hv, ht, hnext, he]
      refine ⟨(hfirst.skip hvariable).mp hplace, by simp [ht], ⟨f, e, hfirst, ?_, rfl, rfl⟩,
        ?_, ?_, ?_⟩
      · exact (hfirst.skip hends).mp ((h.first?_eq_some_iff hscan hb).mp he)
      · refine (h.any_first?_iff hscan hb hplace ?_).trans (hfirst.exists_skip ?_)
        · simp [hk]
        · exact fun n hl hk => hends n hl (.inr (.inl hk))
      · refine (h.any_first?_iff hscan hb hplace ?_).trans (hfirst.exists_skip ?_)
        · rintro ⟨hamp, -⟩
          cases hk.symm.trans hamp
        · exact fun n hl hr => hends n hl (.inr (.inr hr))
      · have hscan' : ts.ScansTo g (v + 1) := hnext ▸ (h.step hplace.outermost).1
        intro d
        simp only [Option.map_map, Option.map_eq_some_iff, h.first?_eq_some_iff hscan' hb,
          Function.comp_apply]

def stretches (start : Nat) (cuts : List Nat) (stop : Nat) : List (Nat × Nat) :=
  match cuts with
  | [] => [(start, stop)]
  | c :: cuts => (start, c) :: stretches (c + 1) cuts stop

theorem of_mem_stretches {start : Nat} {cuts : List Nat} {p : Nat × Nat}
    (h : p ∈ stretches start cuts stop) :
    (p.1 = start ∨ ∃ c ∈ cuts, p.1 = c + 1) ∧ (p.2 = stop ∨ p.2 ∈ cuts) := by
  induction cuts generalizing start with
  | nil =>
    obtain rfl := List.mem_singleton.mp h
    exact ⟨.inl rfl, .inl rfl⟩
  | cons c cuts ih =>
    rcases List.mem_cons.mp h with rfl | h
    · exact ⟨.inl rfl, .inr List.mem_cons_self⟩
    · obtain ⟨hstart | ⟨c', hc', hstart⟩, hstop⟩ := ih h
      · exact ⟨.inr ⟨c, List.mem_cons_self, hstart⟩, hstop.imp_right (List.mem_cons_of_mem c)⟩
      · exact ⟨.inr ⟨c', List.mem_cons_of_mem c hc', hstart⟩,
          hstop.imp_right (List.mem_cons_of_mem c)⟩

theorem exists_cuts (h : ts.Scannable g) (start : Nat) (hi : ts.ScansTo g i) :
    ∃ cuts, cuts.Pairwise (· < ·) ∧
      (∀ n, n ∈ cuts ↔ i ≤ n ∧ ts.Outermost g n ∧ ts.kind? n = some .comma) ∧
      listFrom ts g.closer start i =
        (stretches start cuts g.closer).filterMap fun p => read? ts p.1 p.2 := by
  fun_induction listFrom ts g.closer start i with
  | case1 start i hle hends ih =>
    rcases Nat.eq_or_lt_of_le hle.2 with rfl | hlt
    · refine ⟨[], .nil, fun n => ?_, ?_⟩
      · refine iff_of_false nofun ?_
        rintro ⟨hn, ho, -⟩
        exact absurd ho.before (Nat.not_lt.mpr hn)
      · rw [listFrom, dif_neg (by omega), List.append_nil]
        rfl
    · have ho := h.outermost_of_scansTo hi hlt
      have hk := (kind?_of_lt hle.1).trans (congrArg some (hends.resolve_left (Nat.ne_of_lt hlt)))
      have hnext := h.pastGroup_eq_succ ho hk rfl
      obtain ⟨cuts, hsorted, hmem, heq⟩ := ih (hnext ▸ (h.step ho).1)
      refine ⟨i :: cuts, List.pairwise_cons.mpr ⟨fun n hn => ((hmem n).mp hn).1, hsorted⟩,
        fun n => ?_, ?_⟩
      · rw [List.mem_cons, hmem]
        constructor
        · rintro (rfl | ⟨hle', hn⟩)
          · exact ⟨Nat.le_refl _, ho, hk⟩
          · exact ⟨by omega, hn⟩
        · rintro ⟨hle', hn⟩
          exact (Nat.eq_or_lt_of_le hle').imp Eq.symm fun hlt' => ⟨hlt', hn⟩
      · rw [heq, stretches, List.filterMap_cons]
        cases read? ts start i <;> rfl
  | case2 start i hle hends ih =>
    obtain ⟨hne, hk⟩ := not_or.mp hends
    have ho := h.outermost_of_scansTo hi (Nat.lt_of_le_of_ne hle.2 hne)
    obtain ⟨hscan, hskip⟩ := h.step ho
    obtain ⟨cuts, hsorted, hmem, heq⟩ := ih hscan
    refine ⟨cuts, hsorted, fun n => (hmem n).trans ?_, heq⟩
    have hpast := lt_pastGroup ts i
    constructor
    · rintro ⟨hle', hn⟩
      exact ⟨by omega, hn⟩
    · rintro ⟨hle', hon, hkn⟩
      refine ⟨Nat.le_of_not_lt fun hlt => ?_, hon, hkn⟩
      rcases Nat.eq_or_lt_of_le hle' with rfl | hin
      · exact hk (Option.some.inj ((kind?_of_lt hle.1).symm.trans hkn))
      · exact hskip n hin hlt hon
  | case3 start i hle =>
    exact absurd ⟨h.lt_size hi.le, hi.le⟩ hle

end Parameter

section
open Tokens Parameter
variable {source : String} {i : Nat} {t : Token} {g : Group}

/-- Only functions and anonymous classes have parameter lists. -/
theorem parameters_eq_none (ht : (tokenize source)[i]? = some t)
    (hk : t.kind.isFunction = false ∧ t.kind ≠ .anonymousClassKw) : t.parameters = none := by
  rw [tokenize_eq, getElem?_withExtents] at ht
  obtain ⟨u, hu, rfl⟩ := Option.map_eq_some_iff.mp ht
  have hnone := (withGroups_unmarked _ _ u (Array.mem_of_getElem? hu)).parameters
  revert hk
  split
  · exact fun _ => hnone
  · unfold declare
    split <;> (try split) <;> simp_all [Kind.isFunction]

/-- A parameter list without functions in it is cut at the commas that are in no nested pair. Each
piece that shows a variable outside of nested pairs is the parameter that it describes, and nothing
else is one. -/
theorem parameters_split (ht : (tokenize source)[i]? = some t) (hg : t.parameters = some g)
    (hplain : ∀ n k, g.opener < n → n < g.closer → (tokenize source).kind? n = some k →
      k.isFunction = false ∧ k ≠ .anonymousClassKw) :
    ∃ (cuts : List Nat) (entries : List (Option Parameter)), cuts.Pairwise (· < ·) ∧
      (∀ n, n ∈ cuts ↔
        (tokenize source).Outermost g n ∧ (tokenize source).kind? n = some .comma) ∧
      List.Forall₂ (fun p => Entry (tokenize source) g p.1 p.2)
        (stretches (g.opener + 1) cuts g.closer) entries ∧
      Parameter.list (tokenize source) i = entries.reduceOption := by
  have h : (tokenize source).Scannable g := by
    have hmarked := tokenize_marked source
    have hopens := hmarked.parameters i g (by rw [ht]; exact hg)
    refine ⟨hmarked.toGrouped, fun i b hb => (pairs_of_group? hb).1,
      (pairs_of_group? hopens.group).1, fun n hn hlt => ?_⟩
    unfold pastGroup group?
    split
    · next u hu =>
      have hnone := parameters_eq_none hu (hplain n u.kind hn hlt (by simp [kind?, hu]))
      simp [hu, hnone]
    · next hu => simp [hu, past]
  obtain ⟨cuts, hsorted, hmem, heq⟩ := exists_cuts h (g.opener + 1) h.scansTo_start
  refine ⟨cuts, (stretches (g.opener + 1) cuts g.closer).map fun p =>
    read? (tokenize source) p.1 p.2, hsorted, fun n => ?_, ?_, ?_⟩
  · exact (hmem n).trans ⟨fun hn => hn.2, fun hn => ⟨hn.1.after, hn⟩⟩
  · refine List.forall₂_map_right_iff.mpr (List.forall₂_same.mpr fun p hp => ?_)
    obtain ⟨hstart, hstop⟩ := of_mem_stretches hp
    have hcut : ∀ c ∈ cuts, (tokenize source).Outermost g c ∧
        (tokenize source).ScansTo g (c + 1) := by
      intro c hc
      obtain ⟨-, ho, hk⟩ := (hmem c).mp hc
      exact ⟨ho, h.pastGroup_eq_succ ho hk rfl ▸ (h.step ho).1⟩
    refine entry_read? h ?_ ?_
    · rcases hstart with hstart | ⟨c, hc, hstart⟩ <;> rw [hstart]
      · exact h.scansTo_start
      · exact (hcut c hc).2
    · rcases hstop with hstop | hstop
      · exact Nat.le_of_eq hstop
      · exact Nat.le_of_lt (hcut p.2 hstop).1.before
  · rw [Parameter.list, ht, Option.bind_some, hg, List.reduceOption, List.filterMap_map]
    exact heq

def promoted : String :=
  "<?php function f(#[A($x)] private ?int $a = g($y, 2), A&B &...$c,) {}"

theorem parameters_split_promoted : ∃ (cuts : List Nat) (entries : List (Option Parameter)),
    (∀ n, n ∈ cuts ↔
      (tokenize promoted).Outermost ⟨4, 38⟩ n ∧ (tokenize promoted).kind? n = some .comma) ∧
    List.Forall₂ (fun p => Entry (tokenize promoted) ⟨4, 38⟩ p.1 p.2) (stretches 5 cuts 38)
      entries ∧
    entries.reduceOption.map (·.name) = ["$a", "$c"] := by
  have hparameters : (tokenize promoted)[1]?.bind (·.parameters) = some ⟨4, 38⟩ := by
    decide +kernel
  obtain ⟨t, ht, hg⟩ := Option.bind_eq_some_iff.mp hparameters
  have hplain : ∀ n < 38, ∀ k ∈ (tokenize promoted).kind? n, 4 < n →
      k.isFunction = false ∧ k ≠ .anonymousClassKw := by decide +kernel
  obtain ⟨cuts, entries, -, hcuts, hentries, hlist⟩ :=
    parameters_split ht hg fun n k hn hlt hk => hplain n hlt k hk hn
  refine ⟨cuts, entries, hcuts, hentries, ?_⟩
  rw [← hlist]
  decide +kernel

end
end PhpDoc
