import PhpDoc.Declaration.Name
import PhpDoc.Declaration.NativeType
import PhpDoc.Declaration.Parameter
import PhpDoc.Proofs.ParameterLists
import PhpDoc.Proofs.Renumbering
/-!
The heads of declarations in a file whose tokens are numbered anew. Names, types and parameters are
those of the other file: fillers never count, and nothing but fillers is left out.
-/
namespace PhpDoc

theorem Kind.isFiller_of_isBody {k : Kind} (h : k.isBody = true) : k.isFiller = true := by
  revert h
  cases k <;> decide

namespace DocComment
variable {ts : Tokens} {start stop : Nat}

theorem between_of_le (h : stop ≤ start) : between ts start stop = [] := by
  rw [between, Nat.sub_eq_zero_of_le h]
  rfl

theorem between_of_lt (h : start < stop) : between ts start stop =
    (ts[start]?.map fun t => (start, t)).toList ++ between ts (start + 1) stop := by
  rw [between, between, show stop - start = (stop - (start + 1)) + 1 by omega,
    List.range'_succ, List.filterMap_cons]
  cases ts[start]? <;> rfl

end DocComment

namespace Tokens.Renumbers
variable {ts ts' : Tokens} {f : Nat → Nat} {i j start stop : Nat} {t : Token} {g : Group}

theorem isBody_of_not_isFiller {k : Kind} (h : ¬k.isFiller = true) : k.isBody = false :=
  Bool.eq_false_iff.mpr fun hbody => h (Kind.isFiller_of_isBody hbody)

theorem solid?_eq (h : ts.Renumbers ts' f) (i : Nat) :
    ts'.solid? (f i) = (ts.solid? i).map f := by
  fun_induction solid? ts i with
  | case1 i hi hfiller ih =>
    rcases h.step i hi with hout | ⟨hsucc, hi', ht⟩
    · rw [← hout.succ, ih]
    · rw [solid?, dif_pos hi', ht.kind, if_pos hfiller, ← hsucc, ih]
  | case2 i hi hsolid =>
    obtain ⟨-, hi', ht⟩ := h.kept hi (isBody_of_not_isFiller hsolid)
    rw [solid?, dif_pos hi', ht.kind, if_neg hsolid]
    rfl
  | case3 i hi =>
    rw [solid?, dif_neg (Nat.not_lt.mpr (h.size_le (Nat.le_of_not_lt hi)))]
    rfl

theorem succ_of_solid? (h : ts.Renumbers ts' f) (hj : ts.solid? i = some j) :
    f (j + 1) = f j + 1 := by
  fun_induction solid? ts i with
  | case1 i hi hfiller ih => exact ih hj
  | case2 i hi hsolid =>
    cases hj
    exact (h.kept hi (isBody_of_not_isFiller hsolid)).1
  | case3 i hi => cases hj

/-- One step over a token or its group: the token is left out, and what comes after it has its number,
or the step is the same in the other file. -/
theorem pastGroup_eq (h : ts.Renumbers ts' f) (hi : i < ts.size) :
    (IsLeftOut f i ts[i] ∧ f (ts.pastGroup i) = f i) ∨
      (f (i + 1) = f i + 1 ∧ ts'.pastGroup (f i) = f (ts.pastGroup i) ∧
        ∃ hi' : f i < ts'.size, ts[i].Becomes f ts'[f i]) := by
  have hget := Array.getElem?_eq_getElem hi
  rcases h.step i hi with hout | ⟨hsucc, hi', ht⟩
  · refine .inl ⟨hout, ?_⟩
    rw [pastGroup, hget]
    simp only [hout.parameters, hout.group]
    exact hout.succ
  · refine .inr ⟨hsucc, ?_, hi', ht⟩
    have hpast := h.past_eq hsucc (o := ts[i].parameters <|> ts[i].group) fun g hg => by
      cases hp : ts[i].parameters with
      | none => exact (h.marks i hi g (.inl (by simpa [hp] using hg))).2
      | some p => exact (h.marks i hi g (.inr (.inl (by simpa [hp] using hg)))).2
    rw [pastGroup, pastGroup, hget, Array.getElem?_eq_getElem hi', ← hpast]
    simp only [ht.parameters, ht.group]
    cases ts[i].parameters <;> rfl

/-- The same for a token that is not left out. -/
theorem pastGroup_of_kept (h : ts.Renumbers ts' f) (hi : i < ts.size)
    (hk : ts[i].kind.isBody = false) : f (i + 1) = f i + 1 ∧
      ts'.pastGroup (f i) = f (ts.pastGroup i) ∧
      ∃ hi' : f i < ts'.size, ts[i].Becomes f ts'[f i] := by
  refine (h.pastGroup_eq hi).resolve_left fun hout => ?_
  rw [hout.1.body] at hk
  cases hk

theorem not_lt_of_not_lt (h : ts.Renumbers ts' f) (hi : ¬(i < ts.size ∧ i < stop)) :
    ¬(f i < ts'.size ∧ f i < f stop) := by
  rintro ⟨hsize, hstop⟩
  refine hi ⟨Nat.lt_of_not_le fun hle => ?_, Nat.lt_of_not_le fun hle => ?_⟩
  · exact absurd hsize (Nat.not_lt.mpr (h.size_le hle))
  · exact absurd hstop (Nat.not_lt.mpr (h.mono hle))

def counterpart (ts' : Tokens) (f : Nat → Nat) (p : DocComment.Part) : Option DocComment.Part :=
  if f (p.1 + 1) = f p.1 then none else ts'[f p.1]?.map fun t => (f p.1, t)

/-- The tokens of a stretch are those of the other one that are not left out. -/
theorem between_eq (h : ts.Renumbers ts' f) (start stop : Nat) :
    DocComment.between ts' (f start) (f stop) =
      (DocComment.between ts start stop).filterMap (counterpart ts' f) := by
  generalize hn : stop - start = n
  induction n generalizing start with
  | zero =>
    have hle : stop ≤ start := by omega
    rw [DocComment.between_of_le hle, DocComment.between_of_le (h.mono hle)]
    rfl
  | succ n ih =>
    rw [DocComment.between_of_lt (show start < stop by omega), List.filterMap_append,
      ← ih (start + 1) (by omega)]
    rcases Nat.lt_or_ge start ts.size with hi | hi
    · rw [Array.getElem?_eq_getElem hi]
      rcases h.step start hi with hout | ⟨hsucc, hi', -⟩
      · simp [counterpart, hout.succ]
      · rw [DocComment.between_of_lt ((h.lt_iff hsucc).mpr (by omega)), hsucc]
        simp [counterpart, hsucc, hi']
    · have hsucc := h.succ_of_size_le hi
      have hnone : ts[start]? = none := by simpa using hi
      have hnone' : ts'[f start]? = none := by simpa using h.size_le hi
      rw [DocComment.between_of_lt ((h.lt_iff hsucc).mpr (by omega)), hsucc, hnone, hnone']
      simp

theorem segment_eq_between (ts : Tokens) (start stop : Nat) :
    ts.segment start stop = (DocComment.between ts start stop).map (·.2) := by
  rw [segment, Array.toList_extract, List.extract_eq_take_drop]
  generalize hn : stop - start = n
  induction n generalizing start with
  | zero =>
    rw [DocComment.between_of_le (by omega)]
    rfl
  | succ n ih =>
    rw [DocComment.between_of_lt (show start < stop by omega), List.map_append,
      ← ih (start + 1) (by omega)]
    rcases Nat.lt_or_ge start ts.size with hi | hi
    · rw [List.drop_eq_getElem_cons (by simpa using hi), List.take_succ_cons]
      simp [hi]
    · have hnone : ts[start]? = none := by simpa using hi
      rw [List.drop_of_length_le (by simpa using hi), List.drop_of_length_le (by simp; omega), hnone]
      simp

def counts (t : Token) : Bool :=
  !t.kind.isFiller || t.kind == .whitespace

theorem textOf_eq (h : ts.Renumbers ts' f) (start stop : Nat) :
    ts'.textOf (f start) (f stop) = ts.textOf start stop := by
  have hmem : ∀ p ∈ DocComment.between ts start stop, ts[p.1]? = some p.2 := by
    intro p hp
    obtain ⟨i, -, hi⟩ := List.mem_filterMap.mp hp
    obtain ⟨t, ht, rfl⟩ := Option.map_eq_some_iff.mp hi
    exact ht
  have htexts : ((ts'.segment (f start) (f stop)).filter counts).map (·.text) =
      ((ts.segment start stop).filter counts).map (·.text) := by
    rw [segment_eq_between, segment_eq_between, h.between_eq]
    generalize DocComment.between ts start stop = parts at hmem
    induction parts with
    | nil => rfl
    | cons p ps ih =>
      obtain ⟨hp, hps⟩ := List.forall_mem_cons.mp hmem
      obtain ⟨hi, hget⟩ := Array.getElem?_eq_some_iff.mp hp
      rw [List.filterMap_cons, List.map_cons, List.filter_cons]
      rcases h.step p.1 hi with hout | ⟨hsucc, hi', ht⟩
      · have hskip : counts p.2 = false := by
          have hbody := hout.body
          rw [hget] at hbody
          revert hbody
          rw [counts]
          cases p.2.kind <;> decide
        simpa only [counterpart, hout.succ, hskip, if_true, Bool.false_eq_true, if_false] using ih hps
      · rw [hget] at ht
        have hcounts : counts ts'[f p.1] = counts p.2 := by rw [counts, ht.kind, counts]
        simp only [counterpart, hsucc, Nat.add_eq_left, Nat.one_ne_zero, if_false,
          Array.getElem?_eq_getElem hi', Option.map_some, List.map_cons, List.filter_cons, hcounts]
        split
        · rename_i hc
          have htext : ts'[f p.1].text = p.2.text :=
            ht.text (by rintro hk; simp [counts, hk] at hc; cases hc)
          rw [List.map_cons, List.map_cons, htext, ih hps]
        · exact ih hps
  rw [textOf, textOf]
  exact congrArg (fun l => Text.trim (String.join l)) htexts

theorem declaredName_eq (h : ts.Renumbers ts' f) (hi : f (i + 1) = f i + 1) :
    ts'.declaredName (f i) = ts.declaredName i := by
  have hfound : ∀ {m n}, ts.solid? m = some n → ts'.kind? (f n) = ts.kind? n :=
    fun hn => h.kind?_eq (h.succ_of_solid? hn)
  have hword : ∀ n, f (n + 1) = f n + 1 →
      (ts'[f n]?.bind fun t => if t.kind = .word then some t.text else none) =
        ts[n]?.bind fun t => if t.kind = .word then some t.text else none := by
    intro n hn
    obtain ⟨hnone, hnone'⟩ | ⟨t, t', ht, ht', hbec⟩ := h.getElem?_eq hn
    · rw [hnone, hnone']
    · rw [ht, ht', Option.bind_some, Option.bind_some, hbec.kind]
      split
      · rename_i hk
        rw [hbec.text (by rw [hk]; decide)]
      · rfl
  unfold declaredName
  rw [h.kind?_eq hi, ← hi, h.solid?_eq]
  split
  · rfl
  · rfl
  · rfl
  · cases hfirst : ts.solid? (i + 1) with
    | none => rfl
    | some first =>
      have hsucc := h.succ_of_solid? hfirst
      simp only [Option.map_some, Option.bind_eq_bind, Option.bind_some, hfound hfirst]
      split
      · rw [← hsucc, h.solid?_eq]
        cases hnamed : ts.solid? (first + 1) with
        | none => rfl
        | some named => exact hword named (h.succ_of_solid? hnamed)
      · exact hword first hsucc

theorem isName_of_isBody {k : Kind} (h : k.isBody = true) : k.isName = false := by
  revert h
  cases k <;> decide

theorem text_eq_of_isName {t' : Token} (h : t.Becomes f t') (hn : t.kind.isName = true) :
    t'.text = t.text :=
  h.text (by rintro hk; rw [hk] at hn; cases hn)

theorem clauseFrom_eq (h : ts.Renumbers ts' f) (keyword : Kind) (hk : keyword.isBody = false)
    (stop : Nat) (inside : Bool) (i : Nat) :
    ts'.clauseFrom keyword (f stop) inside (f i) = ts.clauseFrom keyword stop inside i := by
  fun_induction clauseFrom ts keyword stop inside i with
  | case1 inside i hi t ht ih =>
    obtain ⟨hsucc, hpast, hi', hbec⟩ := h.pastGroup_of_kept hi.1 (by rw [← hk, ← ht])
    rw [clauseFrom, dif_pos ⟨hi', (h.lt_iff hsucc).mpr hi.2⟩]
    simp only [hbec.kind]
    rw [if_pos ht, hpast, ih]
  | case2 inside i hi t hne ht ih =>
    obtain ⟨hsucc, hpast, hi', hbec⟩ := h.pastGroup_of_kept hi.1
      (by rcases ht with ht | ht <;> exact ht ▸ rfl)
    rw [clauseFrom, dif_pos ⟨hi', (h.lt_iff hsucc).mpr hi.2⟩]
    simp only [hbec.kind]
    rw [if_neg hne, if_pos ht, hpast, ih]
  | case3 inside i hi t hne hnot ih =>
    rcases h.pastGroup_eq hi.1 with ⟨hout, hpast⟩ | ⟨hsucc, hpast, hi', hbec⟩
    · have hname : t.kind.isName = false := isName_of_isBody hout.body
      rw [hname, Bool.and_false, ← hpast, ih]
      rfl
    · rw [clauseFrom, dif_pos ⟨hi', (h.lt_iff hsucc).mpr hi.2⟩]
      simp only [hbec.kind]
      rw [if_neg hne, if_neg hnot, hpast, ih]
      split
      · rename_i hname
        rw [text_eq_of_isName hbec (Bool.and_eq_true_iff.mp hname).2]
      · rfl
  | case4 inside i hi => rw [clauseFrom, dif_neg (h.not_lt_of_not_lt hi)]

theorem clause_eq (h : ts.Renumbers ts' f) {keyword : Kind} (hk : keyword.isBody = false)
    (hi : f (i + 1) = f i + 1) : ts'.clause keyword (f i) = ts.clause keyword i := by
  have hstop : ((ts'[f i]?.bind (·.body)).map (·.opener)).getD ts'.size =
      f (((ts[i]?.bind (·.body)).map (·.opener)).getD ts.size) := by
    obtain ⟨hnone, hnone'⟩ | ⟨t, t', ht, ht', hbec⟩ := h.getElem?_eq hi
    · simp [hnone, hnone', h.size]
    · rw [ht, ht', Option.bind_some, Option.bind_some, hbec.body]
      cases t.body with
      | none => simp [h.size]
      | some g => rfl
  rw [clause, clause, hstop, ← hi, h.clauseFrom_eq keyword hk]

theorem extendedNames_eq (h : ts.Renumbers ts' f) (hi : f (i + 1) = f i + 1) :
    ts'.extendedNames (f i) = ts.extendedNames i :=
  h.clause_eq rfl hi

theorem implementedNames_eq (h : ts.Renumbers ts' f) (hi : f (i + 1) = f i + 1) :
    ts'.implementedNames (f i) = ts.implementedNames i :=
  h.clause_eq rfl hi

theorem headEnd_eq (h : ts.Renumbers ts' f) (i : Nat) : ts'.headEnd (f i) = f (ts.headEnd i) := by
  fun_induction headEnd ts i with
  | case1 i hi hk | case2 i hi hk | case3 i hi hk =>
    obtain ⟨-, hi', ht⟩ := h.kept hi (by rw [hk]; rfl)
    rw [headEnd, dif_pos hi']
    simp [ht.kind, hk]
  | case4 i hi hopen hsemi harrow ih =>
    rcases h.step i hi with hout | ⟨hsucc, hi', ht⟩
    · rw [← hout.succ, ih]
    · rw [headEnd, dif_pos hi', ← ih, hsucc, ht.kind]
      split <;> first | contradiction | rfl
  | case5 i hi => rw [headEnd, dif_neg (Nat.not_lt.mpr (h.size_le (Nat.le_of_not_lt hi)))]

theorem lt_of_solid? (hj : ts.solid? i = some j) : j < ts.size := by
  fun_induction solid? ts i with
  | case1 i hi hfiller ih => exact ih hj
  | case2 i hi hsolid =>
    cases hj
    exact hi
  | case3 i hi => cases hj

theorem pastGroup_of_solid? (h : ts.Renumbers ts' f) (hj : ts.solid? i = some j) :
    ts'.pastGroup (f j) = f (ts.pastGroup j) := by
  have hsucc := h.succ_of_solid? hj
  refine ((h.pastGroup_eq (lt_of_solid? hj)).resolve_left fun hout => ?_).2.1
  have := hout.1.succ
  omega

theorem returnType_eq (h : ts.Renumbers ts' f) (hi : f (i + 1) = f i + 1) :
    ts'.returnType (f i) = ts.returnType i := by
  have hfound : ∀ {m n}, ts.solid? m = some n → ts'.kind? (f n) = ts.kind? n :=
    fun hn => h.kind?_eq (h.succ_of_solid? hn)
  -- the type after a colon
  have htype : ∀ n, f (n + 1) = f n + 1 →
      (if ts'.kind? (f n) = some .colon then
        nonempty? (ts'.textOf (f n + 1) (ts'.headEnd (f n + 1))) else none) =
      if ts.kind? n = some .colon then nonempty? (ts.textOf (n + 1) (ts.headEnd (n + 1)))
        else none := by
    intro n hn
    rw [h.kind?_eq hn, ← hn, h.headEnd_eq, h.textOf_eq]
  unfold returnType
  obtain ⟨hnone, hnone'⟩ | ⟨t, t', ht, ht', hbec⟩ := h.getElem?_eq hi
  · rw [hnone, hnone']
    rfl
  · rw [ht, ht', Option.bind_some, Option.bind_some, hbec.parameters]
    cases hg : t.parameters with
    | none => rfl
    | some g =>
      obtain ⟨hlt, rfl⟩ := Array.getElem?_eq_some_iff.mp ht
      have hcloser := (h.marks i hlt g (.inr (.inl hg))).2
      simp only [Option.map_some, Option.bind_eq_bind, Option.bind_some, Group.renumber]
      rw [← hcloser, h.solid?_eq]
      cases hafter : ts.solid? (g.closer + 1) with
      | none => rfl
      | some after =>
        have hsucc := h.succ_of_solid? hafter
        simp only [Option.map_some, Option.bind_some, hfound hafter]
        split
        · rw [← hsucc, h.solid?_eq]
          cases hcaptured : ts.solid? (after + 1) with
          | none => rfl
          | some captured =>
            simp only [Option.map_some, Option.bind_some]
            rw [h.pastGroup_of_solid? hcaptured, h.solid?_eq]
            cases hcolon : ts.solid? (ts.pastGroup captured) with
            | none => rfl
            | some colon => exact htype colon (h.succ_of_solid? hcolon)
        · rw [← htype after hsucc, h.kind?_eq hsucc]

theorem typeStart_eq (h : ts.Renumbers ts' f) (start : Nat) (hi : i ≤ ts.size) :
    ts'.typeStart (f start) (f i) = f (ts.typeStart start i) := by
  induction i generalizing start with
  | zero => rw [h.zero, typeStart, typeStart]
  | succ i ih =>
    have hlt : i < ts.size := hi
    have hkind : ts.kind? i = some ts[i].kind := by simp [kind?, hlt]
    rcases h.step i hlt with hout | ⟨hsucc, hi', ht⟩
    · have hpart : isTypePart ts[i].kind = false ∧ ts[i].kind.isFiller = true := by
        have hbody := hout.body
        revert hbody
        cases ts[i].kind <;> decide
      rw [hout.succ, typeStart, hkind]
      simp only [hpart.1, hpart.2, if_true, Bool.false_eq_true, if_false]
      exact ih start (Nat.le_of_lt hlt)
    · rw [hsucc, typeStart, typeStart, h.kind?_eq hsucc, hkind]
      simp only
      split
      · exact ih i (Nat.le_of_lt hlt)
      · split
        · exact ih start (Nat.le_of_lt hlt)
        · rfl

theorem propertyType_eq (h : ts.Renumbers ts' f) (hi : i ≤ ts.size) :
    ts'.propertyType (f i) = ts.propertyType i := by
  rw [propertyType, propertyType, h.typeStart_eq i hi, h.textOf_eq]

theorem constantHead_eq (h : ts.Renumbers ts' f) (i : Nat) :
    ts'.constantHead (f i) = (ts.constantHead i).map f := by
  fun_induction constantHead ts i with
  | case1 i hi hk | case2 i hi hk =>
    obtain ⟨-, hi', ht⟩ := h.kept hi (by rw [hk]; rfl)
    rw [constantHead, dif_pos hi']
    simp [ht.kind, hk]
  | case3 i hi hequal hsemi hfiller ih =>
    rcases h.step i hi with hout | ⟨hsucc, hi', ht⟩
    · rw [← hout.succ, ih]
    · rw [constantHead, dif_pos hi', ← ih, hsucc, ht.kind]
      split
      · contradiction
      · contradiction
      · rw [if_pos hfiller]
  | case4 i hi hequal hsemi hsolid ih =>
    obtain ⟨hsucc, hi', ht⟩ := h.kept hi (isBody_of_not_isFiller hsolid)
    rw [constantHead, dif_pos hi', List.map_cons, ← ih, hsucc, ht.kind]
    split
    · contradiction
    · contradiction
    · rw [if_neg hsolid]
  | case5 i hi =>
    rw [constantHead, dif_neg (Nat.not_lt.mpr (h.size_le (Nat.le_of_not_lt hi)))]
    rfl

theorem typeOfConstant_eq (h : ts.Renumbers ts' f) (hi : f (i + 1) = f i + 1) :
    ts'.typeOfConstant (f i) = ts.typeOfConstant i := by
  rw [typeOfConstant, typeOfConstant, ← hi, h.constantHead_eq]
  match ts.constantHead (i + 1) with
  | [] => rfl
  | [_] => rfl
  | first :: second :: rest =>
    simp only [List.map_cons]
    rw [← List.map_cons, List.getLastD_map, h.textOf_eq]

end Tokens.Renumbers

def Parameter.Seen.renumber (f : Nat → Nat) (s : Seen) : Seen :=
  { s with
    typeEnd := s.typeEnd.map f
    variableAt := s.variableAt.map f
    defaultAt := s.defaultAt.map f }

def Parameter.renumber (f : Nat → Nat) (q : Parameter) : Parameter :=
  { q with place := f q.place }

namespace Tokens.Renumbers
open Parameter
variable {ts ts' : Tokens} {f : Nat → Nat} {i stop : Nat}

theorem start?_eq (h : ts.Renumbers ts' f) (stop i : Nat) :
    Parameter.start? ts' (f stop) (f i) = (Parameter.start? ts stop i).map f := by
  fun_induction Parameter.start? ts stop i with
  | case1 i hi hle =>
    rcases Nat.lt_or_ge (f i) ts'.size with hi' | hi'
    · rw [Parameter.start?, dif_pos hi', if_pos (h.mono hle)]
      rfl
    · rw [Parameter.start?, dif_neg (Nat.not_lt.mpr hi')]
      rfl
  | case2 i hi hlt hk ih =>
    obtain ⟨hsucc, hpast, hi', ht⟩ := h.pastGroup_of_kept hi (by rw [hk]; rfl)
    rw [Parameter.start?, dif_pos hi', if_neg (mt (h.le_iff hsucc).mp hlt), ht.kind, if_pos hk,
      hpast, ih]
  | case3 i hi hlt hk hskip ih =>
    rcases h.step i hi with hout | ⟨hsucc, hi', ht⟩
    · rw [← hout.succ, ih]
    · rw [Parameter.start?, dif_pos hi', if_neg (mt (h.le_iff hsucc).mp hlt), ht.kind, if_neg hk,
        if_pos hskip, ← hsucc, ih]
  | case4 i hi hlt hk hskip =>
    have hsolid : ts[i].kind.isBody = false := isBody_of_not_isFiller fun hfiller =>
      hskip (by rw [hfiller, Bool.or_true])
    obtain ⟨hsucc, hi', ht⟩ := h.kept hi hsolid
    rw [Parameter.start?, dif_pos hi', if_neg (mt (h.le_iff hsucc).mp hlt), ht.kind, if_neg hk,
      if_neg hskip]
    rfl
  | case5 i hi =>
    rw [Parameter.start?, dif_neg (Nat.not_lt.mpr (h.size_le (Nat.le_of_not_lt hi)))]
    rfl

theorem refersToVariable_eq (h : ts.Renumbers ts' f) (hi : f (i + 1) = f i + 1) :
    refersToVariable ts' (f i) = refersToVariable ts i := by
  unfold refersToVariable
  rw [← hi, h.solid?_eq]
  cases hj : ts.solid? (i + 1) with
  | none => rfl
  | some j =>
    rw [Option.map_some, Option.bind_some, Option.bind_some, h.kind?_eq (h.succ_of_solid? hj)]

theorem look_eq (h : ts.Renumbers ts' f) (stop i : Nat) (s : Seen) :
    look ts' (f stop) (f i) (s.renumber f) = (look ts stop i s).renumber f := by
  have hend : ∀ (o : Option Nat) (i : Nat), (o.map f <|> some (f i)) = (o <|> some i).map f := by
    intro o i
    cases o <;> rfl
  have hvariable : ∀ s : Seen, (s.renumber f).variableAt = s.variableAt.map f := fun _ => rfl
  fun_induction look ts stop i s with
  | case1 i s hi sign hk hv ih =>
    obtain ⟨hsucc, hpast, hi', ht⟩ := h.pastGroup_of_kept hi.1 (by rw [hk]; rfl)
    rw [← ih, ← hpast, look, dif_pos ⟨hi', (h.lt_iff hsucc).mpr hi.2⟩]
    simp only [hv, Option.map_none, ht.kind, hk, Seen.renumber, hend, Option.map_some, sign]
  | case2 i s hi sign hk hv ih =>
    obtain ⟨hsucc, hpast, hi', ht⟩ := h.pastGroup_of_kept hi.1 (by rw [hk]; rfl)
    simp only [dite_eq_ite] at ih
    rw [← ih, ← hpast, look, dif_pos ⟨hi', (h.lt_iff hsucc).mpr hi.2⟩]
    simp only [hvariable, hv, Option.map_none, ht.kind, hk, h.refersToVariable_eq hsucc, sign]
    congr 1
    split
    · simp only [Seen.renumber, hend, hv, Option.map_none]
    · rfl
  | case3 i s hi sign hk hv ih =>
    obtain ⟨hsucc, hpast, hi', ht⟩ := h.pastGroup_of_kept hi.1 (by rw [hk]; rfl)
    rw [← ih, ← hpast, look, dif_pos ⟨hi', (h.lt_iff hsucc).mpr hi.2⟩]
    simp only [hv, Option.map_none, ht.kind, hk, Seen.renumber, hend, sign]
  | case4 i s hi val hk hv =>
    obtain ⟨hsucc, -, hi', ht⟩ := h.pastGroup_of_kept hi.1 (by rw [hk]; rfl)
    rw [look, dif_pos ⟨hi', (h.lt_iff hsucc).mpr hi.2⟩]
    simp only [hv, Option.map_some, ht.kind, hk, Seen.renumber, hsucc]
  | case5 i s hi hvar hamp hdots hequal ih =>
    rcases h.pastGroup_eq hi.1 with ⟨hout, hpast⟩ | ⟨hsucc, hpast, hi', ht⟩
    · rw [← ih, hpast]
    · rw [← ih, ← hpast, look, dif_pos ⟨hi', (h.lt_iff hsucc).mpr hi.2⟩]
      simp only [hvariable, ht.kind]
      cases hv : s.variableAt with
      | none =>
        rw [Option.map_none]
        split <;> first | rfl | simp_all
      | some v =>
        rw [Option.map_some]
        split <;> first | rfl | simp_all
  | case6 i s hi => rw [look, dif_neg (h.not_lt_of_not_lt hi)]

/-- What is seen as the variable of a parameter is one. -/
theorem kind?_of_look {p : Nat} {s : Seen} (hs : s.variableAt = none)
    (hp : (look ts stop i s).variableAt = some p) : ts.kind? p = some .variable := by
  suffices hseen : ∀ s : Seen, (∀ p, s.variableAt = some p → ts.kind? p = some .variable) →
      ∀ p, (look ts stop i s).variableAt = some p → ts.kind? p = some .variable from
    hseen s (by simp [hs]) p hp
  clear hp
  intro s
  fun_induction look ts stop i s with
  | case1 i s hi sign hk hv ih =>
    refine fun _ => ih ?_
    rintro p ⟨⟩
    simp [kind?, hi.1, hk]
  | case2 i s hi sign hk hv ih =>
    simp only [dite_eq_ite] at ih
    refine fun hs => ih ?_
    split
    · exact hs
    · exact hs
  | case3 i s hi sign hk hv ih => exact ih
  | case4 | case6 => exact id
  | case5 i s hi hvar hamp hdots hequal ih => exact ih

theorem read?_eq (h : ts.Renumbers ts' f) (start stop : Nat) :
    Parameter.read? ts' (f start) (f stop) = (Parameter.read? ts start stop).map (·.renumber f) := by
  unfold Parameter.read?
  rw [h.start?_eq]
  cases hfirst : Parameter.start? ts stop start with
  | none => rfl
  | some first =>
    have hlook := h.look_eq stop first {}
    have hvariable : ∀ p, (look ts stop first {}).variableAt = some p →
        ts.kind? p = some .variable := fun p => kind?_of_look rfl
    simp only [Option.map_some, Option.bind_eq_bind, Option.bind_some]
    rw [show ({} : Seen) = ({} : Seen).renumber f from rfl, hlook,
      show ({} : Seen).renumber f = {} from rfl]
    generalize look ts stop first {} = seen at hvariable
    cases hv : seen.variableAt with
    | none => simp [Seen.renumber, hv]
    | some place =>
      have hk := hvariable place hv
      obtain ⟨t, ht, hkind⟩ := Option.map_eq_some_iff.mp hk
      obtain ⟨hlt, rfl⟩ := Array.getElem?_eq_some_iff.mp ht
      obtain ⟨-, hi', hbec⟩ := h.kept hlt (by rw [hkind]; rfl)
      have hname := hbec.text (by rw [hkind]; decide)
      have hend : (seen.typeEnd.map f).getD (f place) = f (seen.typeEnd.getD place) := by
        cases seen.typeEnd <;> rfl
      have hdefault : (seen.defaultAt.map f).map (fun i => ts'.textOf i (f stop)) =
          seen.defaultAt.map fun i => ts.textOf i stop := by
        cases seen.defaultAt with
        | none => rfl
        | some i => exact congrArg some (h.textOf_eq i stop)
      simp only [Seen.renumber, hv, Option.map_some, Option.bind_some, ht,
        Array.getElem?_eq_getElem hi', hname, h.textOf_eq, hend, hdefault, Parameter.renumber]

theorem listFrom_eq (h : ts.Renumbers ts' f) {closer : Nat} (hcloser : f (closer + 1) = f closer + 1)
    (start i : Nat) : listFrom ts' (f closer) (f start) (f i) =
      (listFrom ts closer start i).map (·.renumber f) := by
  fun_induction listFrom ts closer start i with
  | case1 start i hi hends ih =>
    have hsucc : f (i + 1) = f i + 1 := by
      rcases hends with rfl | hk
      · exact hcloser
      · exact (h.kept hi.1 (by rw [hk]; rfl)).1
    obtain ⟨hi', ht⟩ := ((h.step i hi.1).resolve_left fun hout => by
      have := hout.succ
      omega).2
    rw [listFrom, dif_pos ⟨hi', (h.le_iff hcloser).mpr hi.2⟩, if_pos, h.read?_eq, List.map_append,
      ← ih, hsucc]
    · cases Parameter.read? ts start i <;> rfl
    · exact hends.imp (fun he => by rw [he]) fun hk => by rw [ht.kind, hk]
  | case2 start i hi hends ih =>
    rcases h.pastGroup_eq hi.1 with ⟨hout, hpast⟩ | ⟨hsucc, hpast, hi', ht⟩
    · rw [← ih, hpast]
    · rw [listFrom, dif_pos ⟨hi', (h.le_iff hcloser).mpr hi.2⟩, if_neg, hpast, ih]
      rintro (he | hk)
      · refine hends (.inl (Nat.le_antisymm hi.2 ?_))
        exact (h.le_iff hsucc).mp (Nat.le_of_eq he.symm)
      · exact hends (.inr (by rw [← hk, ht.kind]))
  | case3 start i hi =>
    rw [listFrom, dif_neg]
    · rfl
    · rintro ⟨hsize, hle⟩
      refine hi ⟨Nat.lt_of_not_le fun hge => ?_, (h.le_iff hcloser).mp hle⟩
      exact absurd hsize (Nat.not_lt.mpr (h.size_le hge))

/-- The parameters of a function are the same but for the numbers of their tokens. -/
theorem list_eq (h : ts.Renumbers ts' f) (hi : f (i + 1) = f i + 1) :
    Parameter.list ts' (f i) = (Parameter.list ts i).map (·.renumber f) := by
  unfold Parameter.list
  obtain ⟨hnone, hnone'⟩ | ⟨t, t', ht, ht', hbec⟩ := h.getElem?_eq hi
  · rw [hnone, hnone']
    rfl
  · rw [ht, ht', Option.bind_some, Option.bind_some, hbec.parameters]
    cases hg : t.parameters with
    | none => rfl
    | some g =>
      obtain ⟨hlt, rfl⟩ := Array.getElem?_eq_some_iff.mp ht
      obtain ⟨hopener, hcloser⟩ := h.marks i hlt g (.inr (.inl hg))
      simp only [Option.map_some, Group.renumber]
      rw [← hopener, h.listFrom_eq hcloser]

end Tokens.Renumbers
end PhpDoc
