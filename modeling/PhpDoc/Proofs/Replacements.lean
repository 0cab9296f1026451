import PhpDoc.Proofs.Rewrites
/-!
Replacements in the bodies of tags. The source text with the replacements made has the tokens of the
source text before, but for those that are left out, each under the number that it gets then.
-/
namespace PhpDoc

namespace Kind

theorem isDoc_of_isBody {k : Kind} (h : k.isBody = true) : k.isDoc = true := by
  revert h
  cases k <;> decide

theorem isInner_of_isBody {k : Kind} (h : k.isBody = true) : k.isInner = true := by
  revert h
  cases k <;> decide

end Kind

namespace Piece

/-- The pieces in their roles are the pieces, and parts of comments have no other roles. -/
theorem getElem?_of_assign {before : Option Kind} {ps : List Piece} {i : Nat} {q : Piece}
    (h : (assign before ps)[i]? = some q) :
    ∃ p, ps[i]? = some p ∧ p.text = q.text ∧ (q.kind.isDoc = true → p.kind = q.kind) := by
  induction ps generalizing before i with
  | nil => cases h
  | cons p ps ih =>
    rw [assign] at h
    split at h
    · cases i with
      | zero => exact ⟨q, h, rfl, fun _ => rfl⟩
      | succ i => exact ih h
    · rename_i htrivia
      cases i with
      | zero =>
        cases h
        refine ⟨p, rfl, rfl, fun hdoc => ?_⟩
        rw [role_isDoc (isDoc_of_not_isTrivia htrivia)] at hdoc
        cases hdoc
      | succ i => exact ih h

end Piece

/-- A token is a piece of the source text, and a part of a comment if it is one. -/
theorem getElem?_cut {source : String} {i : Nat} {t : Token} (h : (tokenize source)[i]? = some t) :
    ∃ p, (Piece.cut false source.toList)[i]? = some p ∧ p.text = t.text.toList ∧ p.text ≠ [] ∧
      (t.kind.isDoc = true → p.kind = t.kind) := by
  have hpiece : (Piece.assign none (Piece.cut false source.toList))[i]? = some t.piece := by
    rw [← map_piece_tokenize, List.getElem?_map]
    simp [h]
  obtain ⟨p, hp, htext, hkind⟩ := Piece.getElem?_of_assign hpiece
  exact ⟨p, hp, htext,
    (Piece.cut_cover false source.toList).nonempty p (List.mem_of_getElem? hp), hkind⟩

theorem length_cut (source : String) :
    (Piece.cut false source.toList).length = (tokenize source).size := by
  have hlength := congrArg List.length (map_piece_tokenize source)
  have htexts := congrArg List.length (Piece.assign_text none (Piece.cut false source.toList))
  simp only [List.length_map] at hlength htexts
  rw [← htexts, ← hlength, Array.length_toList]

namespace Replacement.Suits
variable {ts : Tokens} {place place' : Nat} {r r' : Replacement}

/-- Replacements for different tags are apart. -/
theorem place_eq (h : r.Suits ts place) (h' : r'.Suits ts place') (hle : place ≤ r'.last)
    (hle' : place' ≤ r.last) : place = place' := by
  have hapart : ∀ {p p' : Nat} {r : Replacement}, r.Suits ts p → ts.kind? p' = some .docTag → p < p' →
      ¬p' ≤ r.last := by
    intro p p' r h htag hlt hle
    obtain ⟨k, hk, hbody⟩ := h.body p' hlt (Nat.lt_succ_of_le hle)
    rw [htag] at hk
    cases hk
    cases hbody
  rcases Nat.lt_trichotomy place place' with hlt | heq | hlt
  · exact absurd hle' (hapart h h'.tag hlt)
  · exact heq
  · exact absurd hle (hapart h' h.tag hlt)

end Replacement.Suits

/-- Replacements that are to be made in a file, at most one for each tag: for the place of a tag what
is replaced in its body. -/
structure Plan (ts : Tokens) where
  at? : Nat → Option Replacement
  suits : ∀ place r, at? place = some r → r.Suits ts place

namespace Plan
variable {ts ts' : Tokens} {plan : Plan ts} {f : Nat → Nat} {i place place' : Nat} {t : Token}
  {r r' : Replacement}

def Spares (plan : Plan ts) (i : Nat) : Prop :=
  ∀ place r, plan.at? place = some r → ¬(r.first ≤ i ∧ i ≤ r.last)

inductive Gives (plan : Plan ts) (i : Nat) (t : Token) : String → Prop
  | kept (spared : plan.Spares i) : Gives plan i t t.text
  | written {place : Nat} {r : Replacement} (planned : plan.at? place = some r) (first : r.first = i) :
    Gives plan i t r.text
  | leftOut {place : Nat} {r : Replacement} (planned : plan.at? place = some r) (lt : r.first < i)
    (le : i ≤ r.last) : Gives plan i t ""

/-- Two replacements at one token are the same. -/
theorem eq_of_overlap (h : plan.at? place = some r) (h' : plan.at? place' = some r')
    (hle : r.first ≤ r'.last) (hle' : r'.first ≤ r.last) : r = r' := by
  have hs := plan.suits place r h
  have hs' := plan.suits place' r' h'
  have hlt := hs.lt
  have hlt' := hs'.lt
  obtain rfl := hs.place_eq hs' (by omega) (by omega)
  exact Option.some.inj (h.symm.trans h')

namespace Gives
variable {s : String}

theorem of_spares (h : plan.Gives i t s) (hi : plan.Spares i) : s = t.text := by
  cases h with
  | kept => rfl
  | @written place r planned first =>
    have hle := (plan.suits place r planned).le
    exact absurd ⟨by omega, by omega⟩ (hi place r planned)
  | @leftOut place r planned lt le => exact absurd ⟨by omega, by omega⟩ (hi place r planned)

theorem of_first (h : plan.Gives r.first t s) (hr : plan.at? place = some r) : s = r.text := by
  have hle := (plan.suits place r hr).le
  cases h with
  | kept spared => exact absurd ⟨Nat.le_refl _, hle⟩ (spared place r hr)
  | @written place' r' planned first =>
    have hle' := (plan.suits place' r' planned).le
    rw [eq_of_overlap hr planned (by omega) (by omega)]
  | @leftOut place' r' planned lt le =>
    obtain rfl := eq_of_overlap hr planned (by omega) (by omega)
    omega

theorem of_leftOut (h : plan.Gives i t s) (hr : plan.at? place = some r) (hlt : r.first < i)
    (hle : i ≤ r.last) : s = "" := by
  cases h with
  | kept spared => exact absurd ⟨Nat.le_of_lt hlt, hle⟩ (spared place r hr)
  | @written place' r' planned first =>
    have hle' := (plan.suits place' r' planned).le
    obtain rfl := eq_of_overlap hr planned (by omega) (by omega)
    omega
  | leftOut => rfl

end Gives

def edits (ps : List Piece) (texts : List String) : List Edit :=
  List.zipWith (fun p s => ⟨p, s.toList⟩) ps texts

section
variable {ps : List Piece} {texts : List String} {p : Piece} {s : String}

theorem map_piece_edits (h : ps.length = texts.length) : (edits ps texts).map (·.piece) = ps := by
  induction ps generalizing texts with
  | nil => rfl
  | cons p ps ih =>
    obtain ⟨s, texts, rfl⟩ := List.exists_cons_of_ne_nil (l := texts) (by rintro rfl; cases h)
    exact congrArg (p :: ·) (ih (Nat.succ.inj h))

theorem after_edits (h : ps.length = texts.length) :
    Edit.after (edits ps texts) = (String.join texts).toList := by
  rw [String.toList_join]
  induction ps generalizing texts with
  | nil =>
    obtain rfl := List.eq_nil_of_length_eq_zero h.symm
    rfl
  | cons p ps ih =>
    obtain ⟨s, texts, rfl⟩ := List.exists_cons_of_ne_nil (l := texts) (by rintro rfl; cases h)
    exact congrArg (s.toList ++ ·) (ih (Nat.succ.inj h))

end

structure Edits (plan : Plan ts) (es : List Edit) : Prop where
  length : es.length = ts.size
  edit : ∀ (i : Nat) (t : Token), ts[i]? = some t → ∃ p s, es[i]? = some ⟨p, s.toList⟩ ∧
    p.text = t.text.toList ∧ p.text ≠ [] ∧ (t.kind.isDoc = true → p.kind = t.kind) ∧
    plan.Gives i t s

namespace Edits
variable {es : List Edit} {last : Kind}

theorem exists_edit (h : plan.Edits es) {k : Kind} (hk : ts.kind? i = some k) :
    ∃ t p s, ts[i]? = some t ∧ t.kind = k ∧ es[i]? = some ⟨p, s.toList⟩ ∧
      p.text = t.text.toList ∧ (k.isDoc = true → p.kind = k) ∧ plan.Gives i t s := by
  obtain ⟨t, ht, rfl⟩ := Option.map_eq_some_iff.mp hk
  obtain ⟨p, s, he, htext, -, hkind, hgives⟩ := h.edit i t ht
  exact ⟨t, p, s, ht, rfl, he, htext, hkind, hgives⟩

/-- The part of the body of a tag that is left out. -/
theorem leftOut (h : plan.Edits es) (hr : plan.at? place = some r) : ∃ out : List Piece,
    es.drop (r.first + 1) = (out.map fun p => ⟨p, []⟩) ++ es.drop (r.last + 1) ∧
      (∀ p ∈ out, p.kind.isBody = true) ∧ ∀ p ∈ out.getLast?, p.kind = .docText := by
  have hs := plan.suits place r hr
  have hbetween : ∀ i, r.first < i → i ≤ r.last → ∃ p, es[i]? = some ⟨p, []⟩ ∧
      p.kind.isBody = true ∧ (i = r.last → p.kind = .docText) := by
    intro i hlt hle
    have hplace := hs.lt
    obtain ⟨k, hk, hbody⟩ := hs.body i (by omega) (by omega)
    obtain ⟨t, p, s, -, -, he, -, hkind, hgives⟩ := h.exists_edit hk
    have hpk := hkind (Kind.isDoc_of_isBody hbody)
    refine ⟨p, by rw [he, hgives.of_leftOut hr hlt hle]; rfl, hpk ▸ hbody, ?_⟩
    rintro rfl
    rw [hpk]
    exact Option.some.inj (hk.symm.trans hs.last)
  -- the pieces after one of them
  suffices hsuffix : ∀ n i, r.last - i = n → r.first ≤ i → i ≤ r.last → ∃ out : List Piece,
      es.drop (i + 1) = (out.map fun p => ⟨p, []⟩) ++ es.drop (r.last + 1) ∧
        out.length = n ∧ (∀ p ∈ out, p.kind.isBody = true) ∧ ∀ p ∈ out.getLast?, p.kind = .docText by
    obtain ⟨out, hdrop, -, hbody, hlast⟩ := hsuffix _ r.first rfl (Nat.le_refl _) hs.le
    exact ⟨out, hdrop, hbody, hlast⟩
  intro n
  induction n with
  | zero =>
    intro i hn hi hle
    obtain rfl : i = r.last := by omega
    exact ⟨[], rfl, rfl, by simp, by simp⟩
  | succ n ih =>
    intro i hn hi hle
    obtain ⟨p, he, hbody, hlast⟩ := hbetween (i + 1) (by omega) (by omega)
    obtain ⟨out, hdrop, hlength, hout, houtlast⟩ := ih (i + 1) (by omega) (by omega) (by omega)
    obtain ⟨hlt, he⟩ := List.getElem?_eq_some_iff.mp he
    refine ⟨p :: out, ?_, by rw [List.length_cons, hlength], List.forall_mem_cons.mpr ⟨hbody, hout⟩, ?_⟩
    · rw [List.drop_eq_getElem_cons hlt, he, hdrop]
      rfl
    · intro q hq
      rw [List.getLast?_cons] at hq
      cases hout' : out.getLast? with
      | some q' =>
        rw [hout'] at hq
        cases hq
        exact houtlast _ hout'
      | none =>
        rw [hout'] at hq
        cases hq
        refine hlast ?_
        obtain rfl := List.getLast?_eq_none_iff.mp hout'
        simp only [List.length_nil] at hlength
        omega

/-- The edits mend the source text from any place on that is not within a replacement. -/
theorem mends_drop (h : plan.Edits es)
    (hi : ∀ place r, plan.at? place = some r → ¬(r.first < i ∧ i ≤ r.last))
    (hlast : ∀ place r, plan.at? place = some r → r.first = i → last.isInner = true) :
    Edit.Mends last (es.drop i) := by
  induction hn : es.length - i using Nat.strongRecOn generalizing i last with
  | _ n ih =>
    rcases Nat.lt_or_ge i es.length with hlt | hge
    · have hts : i < ts.size := h.length ▸ hlt
      obtain ⟨p, s, he, htext, hne, hkind, hgives⟩ := h.edit i ts[i] (Array.getElem?_eq_getElem hts)
      have hget := (List.getElem?_eq_some_iff.mp he).2
      rw [List.drop_eq_getElem_cons hlt, hget]
      cases hgives with
      | kept spared =>
        have hkeep : (⟨p, ts[i].text.toList⟩ : Edit) = .keep p := by rw [Edit.keep, htext]
        rw [hkeep]
        refine .keep last p
          (ih _ (by omega) (fun place r hr hin => ?_) (fun place r hr hfirst => ?_) rfl)
        · exact spared place r hr ⟨by omega, by omega⟩
        · -- the piece before a replacement is the name of the tag or a part of its body
          have hs := plan.suits place r hr
          have hplace := hs.lt
          have hle := hs.le
          rcases Nat.lt_or_ge place i with hbelow | habove
          · obtain ⟨k, hk, hbody⟩ := hs.body i hbelow (by omega)
            obtain rfl : ts[i].kind = k := by simpa [Tokens.kind?, hts] using hk
            rw [hkind (Kind.isDoc_of_isBody hbody)]
            exact Kind.isInner_of_isBody hbody
          · obtain rfl : place = i := by omega
            have htag : ts[place].kind = .docTag := by simpa [Tokens.kind?, hts] using hs.tag
            rw [hkind (by rw [htag]; rfl), htag]
            rfl
      | @written place r planned first =>
        subst first
        have hs := plan.suits place r planned
        obtain ⟨out, hdrop, hbody, hend⟩ := h.leftOut planned
        obtain ⟨u, hu, hk, hfits⟩ := hs.first
        obtain rfl : ts[r.first] = u := by simpa [hts] using hu
        rw [hdrop]
        have hle := hs.le
        refine .replace p out (hlast place r planned rfl) ?_ (htext ▸ hfits) hbody hend
          (ih _ (by omega) (fun place' r' hr' hin => ?_) (fun _ _ _ _ => rfl) rfl)
        · rw [hkind (by rw [hk]; rfl), hk]
        · have hlt' := (plan.suits place' r' hr').lt
          obtain rfl := eq_of_overlap planned hr' (by omega) (by omega)
          omega
      | @leftOut place r planned lt le => exact absurd ⟨lt, le⟩ (hi place r planned)
    · rw [List.drop_of_length_le hge]
      exact .nil last

end Edits

/-- The tokens of a file after the replacements of a plan, where `f` gives the numbers that the tokens
before have then. -/
structure Result (plan : Plan ts) (ts' : Tokens) (f : Nat → Nat) : Prop where
  renumbers : ts.Renumbers ts' f
  kept : ∀ (i : Nat) (t : Token), ts[i]? = some t → plan.Spares i →
    f (i + 1) = f i + 1 ∧ ∃ t', ts'[f i]? = some t' ∧ t'.text = t.text
  written : ∀ place r, plan.at? place = some r →
    f (r.first + 1) = f r.first + 1 ∧ ∃ t', ts'[f r.first]? = some t' ∧ t'.text = r.text
  leftOut : ∀ place r, plan.at? place = some r → ∀ i, r.first < i → i ≤ r.last → f (i + 1) = f i

theorem map_text_withRoles (before : Option Kind) (es : List Edit) :
    (Edit.withRoles before es).map (·.text) = es.map (·.text) := by
  fun_induction Edit.withRoles before es <;> simp [*]

theorem Edits.isMild {es : List Edit} (h : plan.Edits es) : ∀ e ∈ es, e.IsMild := by
  intro e hmem
  obtain ⟨i, hi⟩ := List.mem_iff_getElem?.mp hmem
  have hlt : i < ts.size := h.length ▸ (List.getElem?_eq_some_iff.mp hi).1
  obtain ⟨p, s, he, htext, hne, hkind, hgives⟩ := h.edit i ts[i] (Array.getElem?_eq_getElem hlt)
  obtain rfl := Option.some.inj (hi.symm.trans he)
  cases hgives with
  | kept spared => exact .inr ⟨htext ▸ hne, .inr htext.symm⟩
  | @written place r planned first =>
    subst first
    obtain ⟨u, hu, hk, hfits⟩ := (plan.suits place r planned).first
    obtain rfl : ts[r.first] = u := by simpa [hlt] using hu
    refine .inr ⟨hfits.ne_nil, .inl ?_⟩
    rw [hkind (by rw [hk]; rfl), hk]
  | @leftOut place r planned lt le =>
    have hs := plan.suits place r planned
    have hplace := hs.lt
    obtain ⟨k, hk, hbody⟩ := hs.body i (by omega) (by omega)
    obtain rfl : ts[i].kind = k := by simpa [Tokens.kind?, hlt] using hk
    exact .inl ⟨rfl, hkind (Kind.isDoc_of_isBody hbody) ▸ hbody⟩

/-- The edits that a plan makes of the pieces of a source text in which all literals end. -/
theorem exists_edits {source : String} (plan : Plan (tokenize source)) {texts : Array String}
    (hsize : texts.size = (tokenize source).size)
    (htexts : ∀ (i : Nat) (t : Token), (tokenize source)[i]? = some t →
      ∃ s, texts[i]? = some s ∧ plan.Gives i t s)
    (hends : Piece.LiteralsEnd (Piece.cut false source.toList)) :
    ∃ es, plan.Edits es ∧ es.map (·.piece) = Piece.cut false source.toList ∧
      Piece.cut false (String.join texts.toList).toList = es.filterMap Edit.piece? := by
  have hlength : (Piece.cut false source.toList).length = texts.toList.length := by
    rw [length_cut, Array.length_toList, hsize]
  have hpieces := map_piece_edits hlength
  have hafter := after_edits hlength
  generalize hes : edits (Piece.cut false source.toList) texts.toList = es at hpieces hafter
  have hedits : plan.Edits es := by
    refine ⟨?_, fun i t ht => ?_⟩
    · rw [← length_cut, ← hpieces, List.length_map]
    · obtain ⟨p, hp, htext, hne, hkind⟩ := getElem?_cut ht
      obtain ⟨s, hs, hgives⟩ := htexts i t ht
      refine ⟨p, s, ?_, htext, hne, hkind, hgives⟩
      rw [← hes, edits, List.getElem?_zipWith, hp, Array.getElem?_toList, hs]
  have hmends : Edit.Mends .openTag es := by
    refine hedits.mends_drop (i := 0) (by omega) fun place r hr hfirst => ?_
    have := (plan.suits place r hr).lt
    omega
  have hbefore : Edit.before es = source.toList := by
    rw [Edit.before_eq, hpieces]
    exact (Piece.cut_cover false source.toList).joined
  have hcut := (Piece.cut_mends hmends rfl (by rw [hbefore, hpieces]) (hpieces ▸ hends)).1
  exact ⟨es, hedits, hpieces, hafter ▸ hcut⟩

/-- Where the text of a token stands after the edits, unless it is left out. -/
theorem Edits.number_spec {source source' : String} {plan : Plan (tokenize source)} {es : List Edit}
    (h : plan.Edits es) (hcut : Piece.cut false source'.toList = es.filterMap Edit.piece?)
    (ht : (tokenize source)[i]? = some t) : ∃ s, plan.Gives i t s ∧
      if s.toList = [] then Edit.number (Edit.withRoles none es) (i + 1) =
        Edit.number (Edit.withRoles none es) i
      else Edit.number (Edit.withRoles none es) (i + 1) =
          Edit.number (Edit.withRoles none es) i + 1 ∧
        ∃ t', (tokenize source')[Edit.number (Edit.withRoles none es) i]? = some t' ∧
          t'.text = s := by
  obtain ⟨p, s, hs, -, -, -, hgives⟩ := h.edit i t ht
  refine ⟨s, hgives, ?_⟩
  have htext : (es.map (·.text))[i]? = some s.toList := by rw [List.getElem?_map, hs]; rfl
  rw [← map_text_withRoles none, List.getElem?_map] at htext
  obtain ⟨e, he, hes⟩ := Option.map_eq_some_iff.mp htext
  have hsucc := Edit.number_succ he
  rw [hes] at hsucc
  split
  · rw [hsucc, if_pos ‹_›]
    rfl
  · rename_i hne
    have hkept := Edit.getElem?_number he (hes ▸ hne)
    rw [Edit.filterMap_withRoles h.isMild, ← hcut, ← map_piece_tokenize, List.getElem?_map,
      hes] at hkept
    obtain ⟨t', ht', hpiece⟩ := Option.map_eq_some_iff.mp hkept
    refine ⟨by rw [hsucc, if_neg hne], t', by simpa using ht', ?_⟩
    exact String.toList_inj.mp (congrArg Piece.text hpiece)

/-- A source text in which all literals end is cut into the tokens that a plan makes of it. -/
theorem exists_result {source : String} (plan : Plan (tokenize source)) {texts : Array String}
    (hsize : texts.size = (tokenize source).size)
    (htexts : ∀ (i : Nat) (t : Token), (tokenize source)[i]? = some t →
      ∃ s, texts[i]? = some s ∧ plan.Gives i t s)
    (hends : Piece.LiteralsEnd (Piece.cut false source.toList)) :
    ∃ f, plan.Result (tokenize (String.join texts.toList)) f := by
  obtain ⟨es, hedits, hpieces, hcut⟩ := plan.exists_edits hsize htexts hends
  refine ⟨_, tokenize_renumbers hedits.isMild hpieces.symm hcut, fun i t ht spared => ?_,
    fun place r hr => ?_, fun place r hr i hlt hle => ?_⟩
  · obtain ⟨s, hgives, hs⟩ := hedits.number_spec hcut ht
    obtain rfl := hgives.of_spares spared
    obtain ⟨p, -, htext, hne, -⟩ := getElem?_cut ht
    rwa [if_neg (htext ▸ hne)] at hs
  · obtain ⟨t, ht, -, hfits⟩ := (plan.suits place r hr).first
    obtain ⟨s, hgives, hs⟩ := hedits.number_spec hcut ht
    obtain rfl := hgives.of_first hr
    rwa [if_neg hfits.ne_nil] at hs
  · have hsuits := plan.suits place r hr
    have hplace := hsuits.lt
    obtain ⟨k, hk, -⟩ := hsuits.body i (by omega) (by omega)
    obtain ⟨t, ht, -⟩ := Option.map_eq_some_iff.mp hk
    obtain ⟨s, hgives, hs⟩ := hedits.number_spec hcut ht
    obtain rfl := hgives.of_leftOut hr hlt hle
    rwa [if_pos (String.toList_eq_nil_iff.mpr rfl)] at hs

end Plan
end PhpDoc
