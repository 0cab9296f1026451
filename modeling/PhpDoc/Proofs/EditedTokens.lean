import PhpDoc.Proofs.BracketPairs
import PhpDoc.Proofs.Recutting
import PhpDoc.Proofs.Renumbering
/-!
The tokens of a source text after edits. The pieces that are left out take no number, the roles, groups
and extents of the other ones stay what they were.
-/
namespace PhpDoc

namespace Tokens
variable {ts ts' : Tokens} {f : Nat → Nat} {i : Nat}

theorem isBracket_of_isBody {k : Kind} (h : k.isBody = true) : k.isBracket = false := by
  revert h
  cases k <;> decide

theorem matchFrom_renumber (h : ts.Renumbers ts' f) (i : Nat) (stack : List (Nat × Kind)) :
    Group.matchFrom (f i) (stack.map fun o => (f o.1, o.2)) (ts'.kinds.drop (f i)) =
      (Group.matchFrom i stack (ts.kinds.drop i)).map (·.renumber f) := by
  generalize hn : ts.size - i = n
  induction n generalizing i stack with
  | zero =>
    have hsize : ts.size ≤ i := by omega
    have hsize' := h.size_le hsize
    rw [List.drop_of_length_le (by simpa using hsize'), List.drop_of_length_le (by simpa using hsize)]
    rfl
  | succ n ih =>
    have hi : i < ts.size := by omega
    have hdrop : ts.kinds.drop i = ts[i].kind :: ts.kinds.drop (i + 1) := by
      rw [List.drop_eq_getElem_cons (by simpa using hi)]
      simp
    have hrest : ∀ stack, _ := fun stack => ih (i + 1) stack (by omega)
    rw [hdrop]
    rcases h.step i hi with hout | ⟨hsucc, hi', ht⟩
    · rw [Group.matchFrom_other (isBracket_of_isBody hout.body), ← hrest, hout.succ]
    · have hdrop' : ts'.kinds.drop (f i) = ts[i].kind :: ts'.kinds.drop (f i + 1) := by
        rw [List.drop_eq_getElem_cons (by simpa using hi'), ← ht.kind]
        simp
      rw [hsucc] at hrest
      rw [hdrop', Group.matchFrom, Group.matchFrom]
      split
      · exact hrest ((i, ts[i].kind) :: stack)
      · split
        · rw [List.dropWhile_map]
          simp only [Function.comp_def]
          cases stack.dropWhile fun o => o.2.closer? != some ts[i].kind with
          | nil => exact hrest stack
          | cons o below => exact congrArg (_ :: ·) (hrest below)
        · exact hrest stack

theorem all_renumber (h : ts.Renumbers ts' f) :
    Group.all ts'.kinds = (Group.all ts.kinds).map (·.renumber f) := by
  have hall := matchFrom_renumber h 0 []
  rwa [h.zero] at hall

/-- Tokens that are numbered anew get the same groups. -/
theorem group?_withGroups_eq (h : ts.Renumbers ts' f) (hsucc : f (i + 1) = f i + 1) :
    ts'.withGroups.group? (f i) = (ts.withGroups.group? i).map (·.renumber f) := by
  have hbrackets : ∀ g ∈ Group.all ts.kinds, _ := fun g hg =>
    h.step.succ_of_joins (Group.of_mem_matchFrom ts.follow_kinds .nil hg).1
  have hinj : ∀ {j}, f (j + 1) = f j + 1 → f i = f j → i = j := by
    intro j hj heq
    exact Nat.le_antisymm ((h.le_iff hj).mp (Nat.le_of_eq heq))
      ((h.le_iff hsucc).mp (Nat.le_of_eq heq.symm))
  refine Option.ext fun g' => ?_
  rw [Option.map_eq_some_iff]
  constructor
  · intro hg'
    obtain ⟨hall, hi⟩ := mem_all_of_group? hg'
    rw [← kinds, all_renumber h] at hall
    obtain ⟨g, hg, rfl⟩ := List.mem_map.mp hall
    refine ⟨g, ?_, rfl⟩
    have hpairs := pairs_of_mem_all hg
    rcases hi with hi | hi
    · rw [hinj (hbrackets g hg).1 hi]
      exact hpairs.opener
    · rw [hinj (hbrackets g hg).2 hi]
      exact hpairs.closer
  · rintro ⟨g, hg, rfl⟩
    obtain ⟨hall, hi⟩ := mem_all_of_group? hg
    have hall' : g.renumber f ∈ Group.all ts'.kinds := by
      rw [all_renumber h]
      exact List.mem_map_of_mem hall
    have hpairs := pairs_of_mem_all hall'
    rcases hi with rfl | rfl
    · exact hpairs.opener
    · exact hpairs.closer

theorem Renumbers.withGroups (h : ts.Renumbers ts' f) (hplain : ∀ t ∈ ts, IsUnmarked t) :
    ts.withGroups.Renumbers ts'.withGroups f := by
  have hsize : ∀ us : Tokens, us.withGroups.size = us.size := fun us => Array.size_mapIdx
  have hget : ∀ (us : Tokens) (i : Nat) (hi : i < us.withGroups.size), us.withGroups[i] =
      { getElem us i (hsize us ▸ hi) with group := us.withGroups.group? i } := by
    intro us i hi
    rw [group?_withGroups us (hsize us ▸ hi)]
    exact Array.getElem_mapIdx _
  have hstep : Numbered ts.withGroups ts'.withGroups f := by
    intro i hi
    rw [hget ts i hi]
    rcases h.step i (hsize ts ▸ hi) with hout | ⟨hsucc, hi', ht⟩
    · refine .inl ⟨hout.body, ?_, hout.parameters, hout.succ⟩
      refine Option.eq_none_iff_forall_ne_some.mpr fun g hg => ?_
      obtain ⟨hall, hi⟩ := mem_all_of_group? hg
      have hsucc := h.step.succ_of_joins (Group.of_mem_matchFrom ts.follow_kinds .nil hall).1
      have hout := hout.succ
      rcases hi with rfl | rfl <;> omega
    · refine .inr ⟨hsucc, by rw [hsize]; exact hi', ?_⟩
      rw [hget ts' (f i)]
      exact ⟨ht.kind, ht.text, group?_withGroups_eq h hsucc, ht.parameters, ht.body, ht.commentEnd⟩
  refine ⟨h.zero, hstep, fun i hi => ?_, ?_⟩
  · rw [hsize] at hi ⊢
    rw [hsize]
    exact h.past i hi
  · intro i hi g hg
    obtain ⟨hparameters, hbody, -⟩ := hplain _ (Array.getElem_mem (hsize ts ▸ hi))
    rw [hget ts i hi] at hg
    rcases hg with hg | hg | hg
    · exact hstep.succ_of_joins (((withGroups_grouped ts).joins i g hg).1)
    · rw [hparameters] at hg
      cases hg
    · rw [hbody] at hg
      cases hg

end Tokens

namespace Edit
variable {es : List Edit} {e : Edit} {i : Nat} {before : Option Kind}

def number (es : List Edit) (i : Nat) : Nat :=
  ((es.take i).filterMap piece?).length + (i - es.length)

theorem number_succ (h : es[i]? = some e) :
    number es (i + 1) = number es i + if e.text = [] then 0 else 1 := by
  obtain ⟨hi, rfl⟩ := List.getElem?_eq_some_iff.mp h
  rw [number, number, List.take_succ_eq_append_getElem hi, List.filterMap_append, List.length_append,
    Nat.sub_eq_zero_of_le hi, Nat.sub_eq_zero_of_le (Nat.le_of_lt hi)]
  by_cases he : es[i].text = [] <;> simp [piece?, he]

theorem number_past (h : es.length ≤ i) :
    number es i = (es.filterMap piece?).length + (i - es.length) := by
  rw [number, List.take_of_length_le h]

/-- A piece that is kept stands at its number. -/
theorem getElem?_number (h : es[i]? = some e) (he : e.text ≠ []) :
    (es.filterMap piece?)[number es i]? = some ⟨e.piece.kind, e.text⟩ := by
  obtain ⟨hi, rfl⟩ := List.getElem?_eq_some_iff.mp h
  have hsplit : es.filterMap piece? = (es.take i).filterMap piece? ++
      ⟨es[i].piece.kind, es[i].text⟩ :: (es.drop (i + 1)).filterMap piece? := by
    have hkept : piece? es[i] = some ⟨es[i].piece.kind, es[i].text⟩ := if_neg he
    rw [← List.filterMap_cons_some hkept, ← List.drop_eq_getElem_cons hi, ← List.filterMap_append,
      List.take_append_drop]
  rw [number, Nat.sub_eq_zero_of_le (Nat.le_of_lt hi), Nat.add_zero, hsplit,
    List.getElem?_append_right (Nat.le_refl _), Nat.sub_self]
  rfl

/-- An edit that leaves out a piece of the body of a tag, gives a text of a comment other words, or
leaves everything as it is. -/
def IsMild (e : Edit) : Prop :=
  e.text = [] ∧ e.piece.kind.isBody = true ∨
    e.text ≠ [] ∧ (e.piece.kind = .docText ∨ e.text = e.piece.text)

def withRoles (before : Option Kind) : List Edit → List Edit
  | [] => []
  | e :: es =>
    if e.piece.kind.isTrivia then e :: withRoles before es
    else
      let kind := Piece.role before e.piece (es.map (·.piece))
      ⟨{ e.piece with kind }, e.text⟩ :: withRoles (some kind) es

theorem map_piece_withRoles : (withRoles before es).map (·.piece) =
    Piece.assign before (es.map (·.piece)) := by
  fun_induction withRoles before es with
  | case1 => rfl
  | case2 before e es htrivia ih =>
    rw [List.map_cons, List.map_cons, Piece.assign, if_pos htrivia, ih]
  | case3 before e es htrivia kind ih =>
    rw [List.map_cons, List.map_cons, Piece.assign, if_neg htrivia, ih]

/-- What matters to the grammar is as it was. -/
theorem IsMild.piece?_eq (h : e.IsMild) (hk : ¬e.piece.kind.isTrivia = true) :
    piece? e = some e.piece := by
  obtain ⟨⟨kind, old⟩, text⟩ := e
  rcases h with ⟨-, hbody⟩ | ⟨hne, hdoc | htext⟩
  · exact absurd (Kind.isTrivia_of_isBody hbody) hk
  · exact absurd (by rw [hdoc]; rfl) hk
  · cases htext
    exact if_neg hne

theorem piece?_cases (e : Edit) : piece? e = none ∨ ∃ text, piece? e = some ⟨e.piece.kind, text⟩ := by
  by_cases he : e.text = []
  · exact .inl (if_pos he)
  · exact .inr ⟨e.text, if_neg he⟩

theorem next?_filterMap (h : ∀ e ∈ es, e.IsMild) :
    (Piece.next? (es.map (·.piece)) = none ∧ Piece.next? (es.filterMap piece?) = none) ∨
      ∃ (p : Piece) (fs : List Edit), (∀ e ∈ fs, e.IsMild) ∧
        Piece.next? (es.map (·.piece)) = some (p, fs.map (·.piece)) ∧
        Piece.next? (es.filterMap piece?) = some (p, fs.filterMap piece?) := by
  induction es with
  | nil => exact .inl ⟨rfl, rfl⟩
  | cons e es ih =>
    obtain ⟨he, hes⟩ := List.forall_mem_cons.mp h
    by_cases htrivia : e.piece.kind.isTrivia = true
    · have hskip : Piece.next? ((e :: es).filterMap piece?) = Piece.next? (es.filterMap piece?) := by
        rw [List.filterMap_cons]
        rcases piece?_cases e with hnone | ⟨text, hsome⟩
        · rw [hnone]
        · rw [hsome, Piece.next?, if_pos htrivia]
      rw [List.map_cons, Piece.next?, if_pos htrivia, hskip]
      exact ih hes
    · refine .inr ⟨e.piece, es, hes, by rw [List.map_cons, Piece.next?, if_neg htrivia], ?_⟩
      rw [List.filterMap_cons_some (he.piece?_eq htrivia), Piece.next?, if_neg htrivia]

theorem opensParameters_filterMap (h : ∀ e ∈ es, e.IsMild) :
    Piece.opensParameters (es.filterMap piece?) = Piece.opensParameters (es.map (·.piece)) := by
  unfold Piece.opensParameters
  obtain ⟨hnone, hnone'⟩ | ⟨p, fs, hfs, hsome, hsome'⟩ := next?_filterMap h
  · rw [hnone, hnone']
  · obtain ⟨hnone, hnone'⟩ | ⟨q, gs, -, hnext, hnext'⟩ := next?_filterMap hfs
    · simp only [hsome, hsome', hnone, hnone']
    · simp only [hsome, hsome', hnext, hnext']

theorem role_filterMap (h : ∀ e ∈ es, e.IsMild) (p : Piece) :
    Piece.role before p (es.filterMap piece?) = Piece.role before p (es.map (·.piece)) := by
  have hany : (Piece.next? (es.filterMap piece?)).any (·.1.kind == .word) =
      (Piece.next? (es.map (·.piece))).any (·.1.kind == .word) := by
    obtain ⟨hnone, hnone'⟩ | ⟨p, fs, -, hsome, hsome'⟩ := next?_filterMap h
    · rw [hnone, hnone']
    · rw [hsome, hsome']
      rfl
  rw [Piece.role, Piece.role, opensParameters_filterMap h, hany]

theorem filterMap_withRoles (h : ∀ e ∈ es, e.IsMild) : (withRoles before es).filterMap piece? =
    Piece.assign before (es.filterMap piece?) := by
  fun_induction withRoles before es with
  | case1 => rfl
  | case2 before e es htrivia ih =>
    have hrest := ih (List.forall_mem_cons.mp h).2
    rw [List.filterMap_cons, List.filterMap_cons]
    rcases piece?_cases e with hnone | ⟨text, hsome⟩
    · rw [hnone]
      exact hrest
    · rw [hsome]
      simp only
      rw [hrest, Piece.assign, if_pos htrivia]
  | case3 before e es htrivia kind ih =>
    obtain ⟨he, hes⟩ := List.forall_mem_cons.mp h
    have hkept := he.piece?_eq htrivia
    have hne : e.text ≠ [] := by
      intro hnil
      rw [piece?, if_pos hnil] at hkept
      cases hkept
    have htext : e.text = e.piece.text := by
      rw [piece?, if_neg hne] at hkept
      exact congrArg Piece.text (Option.some.inj hkept)
    have hrole : piece? ⟨{ e.piece with kind }, e.text⟩ = some { e.piece with kind } := by
      rw [piece?, if_neg hne, htext]
    rw [List.filterMap_cons_some hrole, List.filterMap_cons_some hkept, Piece.assign, if_neg htrivia,
      ih hes, role_filterMap hes]

theorem isMild_withRoles (h : ∀ e ∈ es, e.IsMild) : ∀ e ∈ withRoles before es, e.IsMild := by
  fun_induction withRoles before es with
  | case1 => simp
  | case2 before e es htrivia ih =>
    exact List.forall_mem_cons.mpr (List.forall_mem_cons.mp h |>.imp_right ih)
  | case3 before e es htrivia kind ih =>
    obtain ⟨he, hes⟩ := List.forall_mem_cons.mp h
    refine List.forall_mem_cons.mpr ⟨?_, ih hes⟩
    rcases he with ⟨-, hbody⟩ | ⟨hne, hdoc | htext⟩
    · exact absurd (Kind.isTrivia_of_isBody hbody) htrivia
    · exact absurd (by rw [hdoc]; rfl) htrivia
    · exact .inr ⟨hne, .inr htext⟩

end Edit

theorem Piece.length_toTokens (p : Place) (ps : List Piece) : (toTokens p ps).length = ps.length := by
  simpa using congrArg List.length (toTokens_pieces p ps)

theorem Piece.getElem_toTokens (p : Place) (ps : List Piece) {i : Nat} (hi : i < ps.length) :
    ∃ line column, getElem (toTokens p ps) i (length_toTokens p ps ▸ hi) =
      { kind := ps[i].kind, text := String.ofList ps[i].text, line, column } := by
  induction ps generalizing p i with
  | nil => cases hi
  | cons x ps ih =>
    cases i with
    | zero => exact ⟨p.line, p.column, rfl⟩
    | succ i => exact ih (p.after x.text) (Nat.lt_of_succ_lt_succ hi)

open Edit in
/-- The tokens of the pieces of a text, and those of the pieces after mild edits. -/
theorem Edit.toTokens_renumbers {es : List Edit} (h : ∀ e ∈ es, e.IsMild) (p q : Piece.Place) :
    Tokens.Renumbers (Piece.toTokens p (es.map (·.piece))).toArray
      (Piece.toTokens q (es.filterMap piece?)).toArray (number es) := by
  have hsize : (Piece.toTokens p (es.map (·.piece))).toArray.size = es.length := by
    simpa using Piece.length_toTokens p (es.map (·.piece))
  have hsize' : (Piece.toTokens q (es.filterMap piece?)).toArray.size =
      (es.filterMap piece?).length := by
    simpa using Piece.length_toTokens q (es.filterMap piece?)
  have hget : ∀ (i : Nat) (hi : i < (Piece.toTokens p (es.map (·.piece))).toArray.size),
      ∃ line column, (Piece.toTokens p (es.map (·.piece))).toArray[i] =
        { kind := (getElem es i (hsize ▸ hi)).piece.kind,
          text := String.ofList (getElem es i (hsize ▸ hi)).piece.text, line, column } := by
    intro i hi
    obtain ⟨line, column, ht⟩ := Piece.getElem_toTokens p (es.map (·.piece)) (i := i)
      (by simpa using hsize ▸ hi)
    exact ⟨line, column, by simpa using ht⟩
  refine ⟨by simp [number], fun i hi => ?_, fun i hi => ?_, fun i hi g hg => ?_⟩
  · obtain ⟨line, column, ht⟩ := hget i hi
    have he := List.getElem?_eq_getElem (hsize ▸ hi)
    have hsucc := number_succ he
    rw [ht]
    rcases h _ (List.getElem_mem (hsize ▸ hi)) with ⟨hnil, hbody⟩ | ⟨hne, hmild⟩
    · exact .inl ⟨hbody, rfl, rfl, by rw [hsucc, if_pos hnil]; rfl⟩
    · rw [if_neg hne] at hsucc
      obtain ⟨hlt, hkept⟩ := List.getElem?_eq_some_iff.mp (getElem?_number he hne)
      obtain ⟨line', column', ht'⟩ := Piece.getElem_toTokens q (es.filterMap piece?) hlt
      refine .inr ⟨hsucc, by rw [hsize']; exact hlt, ?_⟩
      rw [List.getElem_toArray, ht', hkept]
      refine ⟨rfl, fun hk => ?_, rfl, rfl, rfl, rfl⟩
      rw [hmild.resolve_left hk]
  · rw [hsize] at hi ⊢
    rw [hsize', number_past hi]
  · obtain ⟨line, column, ht⟩ := hget i hi
    rw [ht] at hg
    rcases hg with hg | hg | hg <;> cases hg

open Edit Tokens in
/-- The tokens of a source text stand in the text after mild edits, with other numbers. -/
theorem tokenize_renumbers {source source' : String} {es : List Edit} (h : ∀ e ∈ es, e.IsMild)
    (hcut : Piece.cut false source.toList = es.map (·.piece))
    (hcut' : Piece.cut false source'.toList = es.filterMap piece?) :
    (tokenize source).Renumbers (tokenize source') (number (withRoles none es)) := by
  have hmild : ∀ e ∈ withRoles none es, e.IsMild := isMild_withRoles h
  have hraw := toTokens_renumbers hmild {} {}
  rw [map_piece_withRoles, filterMap_withRoles h, ← hcut, ← hcut'] at hraw
  have hplain := toTokens_unmarked {} (Piece.assign none (Piece.cut false source.toList))
  exact (hraw.withGroups fun t ht => hplain t (by simpa using ht)).withExtents
    (withGroups_grouped _) (withGroups_unmarked _ _)

end PhpDoc
