import PhpDoc.Proofs.CodeLookahead
import PhpDoc.Proofs.RecutComments
/-!
Cutting a source text again after stretches of its documentation comments have been replaced. The pieces
are the ones before, with their new texts and without those that are left out, if all literals of the
code have an end.
-/
namespace PhpDoc
namespace Piece
open Edit (Mends before after piece?)

variable {c : Char} {cs rest : List Char} {kind last : Kind} {p : Piece} {ps qs : List Piece}
  {es : List Edit}

def endKind (last : Kind) (ps : List Piece) : Kind :=
  (ps.getLast?.map (·.kind)).getD last

theorem endKind_cons (last : Kind) (p : Piece) (ps : List Piece) :
    endKind last (p :: ps) = endKind p.kind ps := by
  rw [endKind, endKind, List.getLast?_cons]
  cases ps.getLast? <;> rfl

theorem endKind_append (last : Kind) (ps qs : List Piece) :
    endKind last (ps ++ qs) = endKind (endKind last ps) qs := by
  rw [endKind, endKind, endKind, List.getLast?_append]
  cases qs.getLast? <;> rfl

/-- Edits may be parted before a piece that is no part of a tag. -/
theorem mends_split {fs : List Edit} (hm : Mends last (es ++ fs))
    (hfirst : ∀ e ∈ fs.head?, e.piece.kind.isBody = false) :
    Mends last es ∧ Mends (endKind last (es.map (·.piece))) fs := by
  generalize hall : es ++ fs = all at hm
  induction hm generalizing es with
  | nil last =>
    obtain ⟨rfl, rfl⟩ := List.append_eq_nil_iff.mp hall
    exact ⟨.nil _, .nil _⟩
  | @keep last p rest hm ih =>
    cases es with
    | nil =>
      rw [List.nil_append] at hall
      exact ⟨.nil _, hall ▸ .keep _ p hm⟩
    | cons e es =>
      obtain ⟨rfl, hrest⟩ := List.cons.inj hall
      rw [Edit.map_piece_keep, endKind_cons]
      exact ⟨.keep _ p (ih hrest).1, (ih hrest).2⟩
  | @replace last first out text rest inside kind fits body end_text hm ih =>
    cases es with
    | nil =>
      rw [List.nil_append] at hall
      exact ⟨.nil _, hall ▸ .replace first out inside kind fits body end_text hm⟩
    | cons e es =>
      obtain ⟨rfl, htail⟩ := List.cons.inj hall
      obtain ⟨bs, rfl, hrest⟩ : ∃ bs, es = (out.map fun p => ⟨p, []⟩) ++ bs ∧ bs ++ fs = rest := by
        rcases List.append_eq_append_iff.mp htail with ⟨as, hout, hfs⟩ | ⟨bs, hes, hrest⟩
        · cases as with
          | nil => exact ⟨[], by simpa using hout.symm, hfs⟩
          | cons e as =>
            have hmem : e ∈ out.map fun p => (⟨p, []⟩ : Edit) := by simp [hout]
            obtain ⟨p, hp, rfl⟩ := List.mem_map.mp hmem
            have := hfirst ⟨p, []⟩ (by simp [hfs])
            rw [body p hp] at this
            cases this
        · exact ⟨bs, hes, hrest.symm⟩
      have hkind : endKind last
          ((⟨first, text⟩ :: ((out.map fun p => ⟨p, []⟩) ++ bs) : List Edit).map (·.piece)) =
          endKind .docText (bs.map (·.piece)) := by
        have hout : endKind .docText out = .docText := by
          rw [endKind]
          cases hlast : out.getLast? with
          | none => rfl
          | some p => exact end_text p hlast
        rw [List.map_cons, endKind_cons, kind, List.map_append, List.map_map, endKind_append]
        simp only [Function.comp_def, List.map_id_fun', id, hout]
      rw [hkind]
      exact ⟨.replace first out inside kind fits body end_text (ih hrest).1, (ih hrest).2⟩

/-- A piece that begins a literal without end: a lone quote, or angle brackets before another one. -/
def IsStray (p : Piece) (rest : List Char) : Prop :=
  p.kind = .operator ∧
    ((∃ c, isQuote c ∧ p.text = [c]) ∨ p.text = ['<', '<'] ∧ rest.head? = some '<')

instance (p : Piece) (rest : List Char) : Decidable (p.IsStray rest) :=
  decidable_of_iff (p.kind = .operator ∧
    (p.text.any (fun c => decide (isQuote c ∧ p.text = [c])) = true ∨
      p.text = ['<', '<'] ∧ rest.head? = some '<')) <|
    and_congr_right' <| or_congr_left <| by
      rw [List.any_eq_true]
      exact ⟨fun ⟨c, _, hc⟩ => ⟨c, of_decide_eq_true hc⟩,
        fun ⟨c, hc⟩ => ⟨c, hc.2 ▸ List.mem_singleton.mpr rfl, decide_eq_true hc⟩⟩

def LiteralsEnd : List Piece → Prop
  | [] => True
  | p :: ps => ¬p.IsStray (ps.flatMap (·.text)) ∧ LiteralsEnd ps

instance decidableLiteralsEnd : DecidablePred LiteralsEnd
  | [] => isTrue trivial
  | p :: ps =>
    have := decidableLiteralsEnd ps
    inferInstanceAs (Decidable (¬p.IsStray (ps.flatMap (·.text)) ∧ LiteralsEnd ps))

theorem LiteralsEnd.right (h : LiteralsEnd (ps ++ qs)) : LiteralsEnd qs := by
  induction ps with
  | nil => exact h
  | cons p ps ih => exact ih h.2

theorem signTail_of_head (h : ∀ s ∈ longSigns, s.toList.head? ≠ some c) (cs : List Char) :
    signTail c cs = 0 := by
  have hnone : (longSigns.find? fun s => s.toList.isPrefixOf (c :: cs)) = none := by
    refine List.find?_eq_none.mpr fun s hs hprefix => ?_
    obtain ⟨rest, hrest⟩ := List.isPrefixOf_iff_prefix.mp hprefix
    have hhead := h s hs
    cases hs' : s.toList with
    | nil => exact absurd hs' ((by decide : ∀ s ∈ longSigns, s.toList ≠ []) s hs)
    | cons d t =>
      rw [hs'] at hrest hhead
      obtain ⟨rfl, -⟩ := List.cons.inj hrest
      exact hhead rfl
  rw [signTail, hnone]

theorem isQuote_iff : isQuote c ↔ c ∈ ['\'', '"', Char.ofNat 0x60] := by
  have hback : c.toNat = 0x60 ↔ c = Char.ofNat 0x60 := by
    refine ⟨fun h => ?_, fun h => h ▸ rfl⟩
    rw [← h, Char.ofNat_toNat]
  simp [isQuote, hback]

theorem shapeTail_sign (hclose : c = '?' → cs.head? ≠ some '>') (hblank : Text.isBlank c = false)
    (hcomment : commentShape? c cs = none) (hliteral : literalShape? c cs = none)
    (hname : nameShape? c cs = none) : shapeTail c cs = (.sign, signTail c cs) := by
  rw [shapeTail_eq hclose, if_neg (by simp [hblank]), hcomment, hliteral, hname]
  rfl

/-- A lone quote is a sign. -/
theorem shapeTail_quote (hc : isQuote c) (hnone : Text.quoteTail c cs = none) :
    shapeTail c cs = (.sign, 0) := by
  have hplain : ∀ d ∈ ['\'', '"', Char.ofNat 0x60], Text.isBlank d = false ∧ d ≠ '?' ∧ d ≠ '#' ∧
      d ≠ '/' ∧ ¬beginsIdent d = true ∧ d ≠ '\\' ∧ ∀ s ∈ longSigns, s.toList.head? ≠ some d := by
    decide
  obtain ⟨hblank, hclose, hhash, hslash, hident, hback, hsigns⟩ := hplain c (isQuote_iff.mp hc)
  rw [shapeTail_sign (fun h => absurd h hclose) hblank
    (commentShape?_none hhash fun h => absurd h hslash) (by rw [literalShape?_quoted hc, hnone]; rfl)
    (nameShape?_none hident fun h => absurd h hback), signTail_of_head hsigns]

/-- Angle brackets that begin no heredoc are a sign and what follows it. -/
theorem shapeTail_brackets (hnone : heredocTail rest = none) :
    shapeTail '<' ('<' :: '<' :: rest) = (.sign, 1) := by
  have hother : ∀ d : Char, d ≠ '<' → ∀ {p : Prop}, '<' = d → p := fun d hd _ h => absurd h.symm hd
  rw [shapeTail_sign (hother _ (by decide)) (by decide)
    (commentShape?_none (by decide) (hother _ (by decide)))
    (by rw [literalShape?_heredoc, hnone]; rfl)
    (nameShape?_none (by decide) (hother _ (by decide)))]
  have hlength : "<<".length = 2 := by decide
  simp [signTail, longSigns, hlength]

/-- Where all literals have an end, one that begins has one. -/
theorem ends_of_literalsEnd {shape : Shape} {n : Nat} (h : shapeTail c cs = (shape, n))
    (hps : ps.flatMap (·.text) = cs.drop n)
    (hends : LiteralsEnd (ofShape shape (c :: cs.take n) ++ ps)) : Ends c cs := by
  refine ⟨fun hc hnone => ?_, ?_⟩
  · obtain ⟨rfl, rfl⟩ := Prod.mk.inj ((shapeTail_quote hc hnone).symm.trans h)
    refine hends.1 ⟨?_, .inl ⟨c, hc, rfl⟩⟩
    exact (by decide : ∀ d ∈ ['\'', '"', Char.ofNat 0x60], Kind.ofSign (String.ofList [d]) = .operator)
      c (isQuote_iff.mp hc)
  · rintro rest rfl rfl hnone
    obtain ⟨rfl, rfl⟩ := Prod.mk.inj ((shapeTail_brackets hnone).symm.trans h)
    have hkind : Kind.ofSign (String.ofList ['<', '<']) = .operator := by decide
    refine hends.1 ⟨hkind, .inr ⟨rfl, ?_⟩⟩
    exact (congrArg List.head? hps).trans rfl

/-- Outside of a comment nothing is replaced. -/
theorem mends_outside {e : Edit} (hm : Mends last (e :: es)) (hlast : last.isInner = false) :
    e = .keep e.piece ∧ Mends e.piece.kind es := by
  cases hm with
  | keep _ p rest => exact ⟨rfl, rest⟩
  | replace first out inside =>
    rw [hlast] at inside
    cases inside

theorem flatMap_piece? (es : List Edit) : (es.filterMap piece?).flatMap (·.text) = after es := by
  induction es with
  | nil => rfl
  | cons e es ih =>
    rw [Edit.after_cons, List.filterMap_cons]
    by_cases he : e.text = []
    · rw [piece?, if_pos he, he]
      exact ih
    · rw [piece?, if_neg he]
      exact congrArg (e.text ++ ·) ih

/-- A text that has the first characters of another one and goes on much like it is cut there too. -/
theorem cut_agree {n : Nat} (h : Text.Agree 4 (cs.drop n) rest) :
    (cs.take n ++ rest).take n = cs.take n ∧ (cs.take n ++ rest).drop n = rest ∧
      Text.Agree (n + 4) cs (cs.take n ++ rest) := by
  by_cases hn : n ≤ cs.length
  · have hlen := List.length_take_of_le hn
    refine ⟨List.take_left' hlen, List.drop_left' hlen, ?_⟩
    have happend := h.append (cs.take n)
    rwa [List.take_append_drop, hlen] at happend
  · have hle := Nat.le_of_not_le hn
    rw [List.drop_of_length_le hle] at h
    obtain rfl := h.eq_nil
    rw [List.take_of_length_le hle, List.append_nil]
    exact ⟨List.take_of_length_le hle, List.drop_of_length_le hle, .refl _ _⟩

/-- A comment after edits of its parts and of what follows it. -/
theorem shapeTail_mends {fs : List Edit} (hm : Mends .docOpen es)
    (hopen : rest.head? ≠ some '/')
    (hes : docParts false (rest.take (commentTail rest)) = es.map (·.piece))
    (hfs : rest.drop (commentTail rest) = before fs) (hend : before fs = [] → fs = []) :
    shapeTail '/' ('*' :: '*' :: (after es ++ after fs)) = (.docComment, 2 + (after es).length) ∧
      docParts false (after es) = es.filterMap piece? ∧
      Text.Agree 1 rest (after es ++ after fs) := by
  have htaken := (docParts_cover false (commentTail_take rest)).joined
  rw [hes, ← Edit.before_eq] at htaken
  have htail : after fs = [] ∨ (es.map (·.piece)).getLast?.map (·.kind) = some .docClose := by
    by_cases hrest : rest.drop (commentTail rest) = []
    · exact .inl (by rw [hend (hfs ▸ hrest)]; rfl)
    · exact .inr (hes ▸ docParts_ends false (commentTail_ends hrest))
  have hparts := (docParts_mends hm (htaken ▸ hes) htail).1
  have hlength : commentTail (after es ++ after fs) = (after es).length := by
    rw [← length_docParts false, hparts, flatMap_piece?]
  have hagree : Text.Agree 1 rest (after es ++ after fs) := by
    cases es with
    | nil =>
      have hnil : rest = [] := by
        cases rest with
        | nil => rfl
        | cons d rest =>
          have hpos := commentTail_pos d rest
          obtain ⟨m, hm⟩ := Nat.exists_eq_succ_of_ne_zero (Nat.ne_of_gt hpos)
          rw [hm] at htaken
          cases htaken
      subst hnil
      rw [hend hfs.symm]
      exact .refl _ _
    | cons e es =>
      obtain ⟨he, -⟩ := mends_outside hm rfl
      have hmem : e.piece ∈ docParts false (rest.take (commentTail rest)) := by simp [hes]
      have hne := (docParts_cover false (commentTail_take rest)).nonempty _ hmem
      obtain ⟨d, t, hd⟩ := List.exists_cons_of_ne_nil hne
      rw [Edit.before_cons, hd] at htaken
      rw [Edit.after_cons, he, Edit.keep, hd]
      have hrest := List.take_append_drop (commentTail rest) rest
      rw [← htaken] at hrest
      rw [Text.Agree, ← hrest]
      rfl
  refine ⟨?_, ?_, hagree⟩
  · have hshape : shapeTail '/' ('*' :: '*' :: (after es ++ after fs)) = _ :=
      shapeTail_eq fun h => absurd h (by decide)
    rw [hshape, if_neg (by decide), commentShape?_doc, if_neg (hagree.head? ▸ hopen), hlength]
    rfl
  · simpa using (docParts_mends hm (htaken ▸ hes) (.inl (rfl : ([] : List Char) = []))).1

theorem cut_code {shape : Shape} {n : Nat} (h : shapeTail c cs = (shape, n)) : cut true (c :: cs) =
    ofShape shape (c :: cs.take n) ++ cut (shape != .plain .closeTag) (cs.drop n) := by
  rw [cut]
  simp only [h, if_true]

/-- A shape other than a comment that is edited is a single piece, which is no part of a comment. -/
theorem ofShape_single {shape : Shape} {n : Nat} (h : shapeTail c cs = (shape, n))
    (hdoc : shape ≠ .docComment) (text : List Char) :
    ∃ p : Piece, ofShape shape text = [p] ∧ p.kind.isDoc = false := by
  cases shape with
  | plain kind => exact ⟨_, rfl, shapeTail_isDoc h⟩
  | docComment => exact absurd rfl hdoc
  | name => exact ⟨_, rfl, nameKind_isDoc _⟩
  | sign => exact ⟨_, rfl, ofSign_isDoc _⟩

theorem isInner_of_isDoc {k : Kind} (h : k.isDoc = false) : k.isInner = false := by
  revert h
  cases k <;> decide

/-- The first piece of what follows a comment is no part of one. -/
theorem isBody_of_cut {php : Bool} (h : cut php cs = es.map (·.piece)) :
    ∀ e ∈ es.head?, e.piece.kind.isBody = false := by
  intro e he
  obtain ⟨rest, rfl⟩ := List.head?_eq_some_iff.mp he
  have hneeds := (cut_enclosed php cs).first (k := e.piece.kind) (by simp [h])
  revert hneeds
  cases e.piece.kind <;> decide

theorem cut_tag (h : beforeTag (c :: cs) = 0) : cut false (c :: cs) =
    ⟨.openTag, c :: cs.take (1 + tagTail (cs.drop 1))⟩ ::
      cut true (cs.drop (1 + tagTail (cs.drop 1))) := by
  rw [cut]
  simp [h]

theorem cut_html {n : Nat} (h : beforeTag (c :: cs) = n + 1) :
    cut false (c :: cs) = ⟨.inlineHtml, c :: cs.take n⟩ :: cut false (cs.drop n) := by
  rw [cut]
  simp [h]

/-- A first piece outside of comments is as it was. -/
theorem mends_first {n : Nat} (hm : Mends last es) (hlast : last.isInner = false)
    (hes : ⟨kind, c :: cs.take n⟩ :: ps = es.map (·.piece)) (hcs : before es = c :: cs) :
    ∃ fs, es = .keep ⟨kind, c :: cs.take n⟩ :: fs ∧ Mends kind fs ∧ ps = fs.map (·.piece) ∧
      before fs = cs.drop n := by
  cases es with
  | nil => cases hes
  | cons e fs =>
    obtain ⟨hkeep, hm⟩ := mends_outside hm hlast
    rw [List.map_cons, List.cons_eq_cons] at hes
    rw [← hes.1] at hkeep hm
    rw [hkeep, Edit.before_cons, Edit.keep, List.cons_append] at hcs
    refine ⟨fs, by rw [hkeep], hm, hes.2, ?_⟩
    exact List.append_cancel_left ((List.cons.inj hcs).2.trans (List.take_append_drop n cs).symm)

/-- A shape is cut off alike where the code goes on much as before. -/
theorem cut_code_agree {shape : Shape} {n : Nat} (h : shapeTail c cs = (shape, n)) (hends : Ends c cs)
    (hagree : Text.Agree 4 (cs.drop n) rest) :
    cut true (c :: (cs.take n ++ rest)) =
        ofShape shape (c :: cs.take n) ++ cut (shape != .plain .closeTag) rest ∧
      Text.Agree 4 (c :: cs) (c :: (cs.take n ++ rest)) := by
  obtain ⟨htake, hdrop, hall⟩ := cut_agree hagree
  rw [cut_code ((shapeTail_agree hends (h ▸ hall)).trans h), htake, hdrop]
  exact ⟨rfl, hall.cons.mono (by omega)⟩

/-- An opening tag is cut off alike where the code goes on much as before. -/
theorem cut_tag_agree {n : Nat} (h : beforeTag (c :: cs) = 0) (hn : n = 1 + tagTail (cs.drop 1))
    (hagree : Text.Agree 4 (cs.drop n) rest) :
    cut false (c :: (cs.take n ++ rest)) = ⟨.openTag, c :: cs.take n⟩ :: cut true rest ∧
      Text.Agree 4 (c :: cs) (c :: (cs.take n ++ rest)) := by
  obtain ⟨htake, hdrop, hall⟩ := cut_agree hagree
  have hopen : beforeTag (c :: (cs.take n ++ rest)) = 0 :=
    (beforeTag_agree (h ▸ hall.cons.mono (by omega))).trans h
  have htail : 1 + tagTail ((cs.take n ++ rest).drop 1) = n := by
    rw [hn]
    refine congrArg (1 + ·) (tagTail_agree (Text.Agree.drop (m := 1) (hn ▸ hall.mono ?_)))
    omega
  rw [cut_tag hopen, htail, htake, hdrop]
  exact ⟨rfl, hall.cons.mono (by omega)⟩

/-- What comes before a tag is cut off alike where the text goes on much as before. -/
theorem cut_html_agree {n : Nat} (h : beforeTag (c :: cs) = n + 1)
    (hagree : Text.Agree 4 (cs.drop n) rest) :
    cut false (c :: (cs.take n ++ rest)) = ⟨.inlineHtml, c :: cs.take n⟩ :: cut false rest ∧
      Text.Agree 4 (c :: cs) (c :: (cs.take n ++ rest)) := by
  obtain ⟨htake, hdrop, hall⟩ := cut_agree hagree
  have hopen : beforeTag (c :: (cs.take n ++ rest)) = n + 1 :=
    (beforeTag_agree (h ▸ hall.cons.mono (by omega))).trans h
  rw [cut_html hopen, htake, hdrop]
  exact ⟨rfl, hall.cons.mono (by omega)⟩

/-- Edits of a comment and of the code after it. -/
theorem mends_comment {fs : List Edit} (hm : Mends .docOpen (es ++ fs))
    (hes : es.map (·.piece) = docParts false (rest.take (commentTail rest)))
    (hfs : fs.map (·.piece) = cut true (rest.drop (commentTail rest))) :
    Mends .docOpen es ∧ ∃ k : Kind, k.isInner = false ∧ Mends k fs := by
  obtain ⟨hleft, hright⟩ := mends_split hm (isBody_of_cut hfs.symm)
  refine ⟨hleft, ?_⟩
  by_cases hrest : rest.drop (commentTail rest) = []
  · rw [hrest, cut] at hfs
    rw [List.map_eq_nil_iff.mp hfs]
    exact ⟨.docClose, rfl, .nil _⟩
  · rw [endKind, hes, docParts_ends false (commentTail_ends hrest)] at hright
    exact ⟨_, rfl, hright⟩

/-- A first piece that begins a comment is as it was. The edits after it are those of the comment and
those of the code behind it. -/
theorem mends_first_comment (hm : Mends last es) (hlast : last.isInner = false)
    (hes : ⟨.docOpen, ['/', '*', '*']⟩ :: (docParts false (rest.take (commentTail rest)) ++
      cut true (rest.drop (commentTail rest))) = es.map (·.piece))
    (hcs : before es = ['/', '*', '*'] ++ rest) :
    ∃ ds fs, es = .keep ⟨.docOpen, ['/', '*', '*']⟩ :: (ds ++ fs) ∧ Mends .docOpen ds ∧
      ds.map (·.piece) = docParts false (rest.take (commentTail rest)) ∧
      (∃ k : Kind, k.isInner = false ∧ Mends k fs) ∧
      fs.map (·.piece) = cut true (rest.drop (commentTail rest)) ∧
      before fs = rest.drop (commentTail rest) := by
  obtain ⟨e, all, rfl, he, hall⟩ := List.map_eq_cons_iff.mp hes.symm
  obtain ⟨hkeep, hinside⟩ := mends_outside hm hlast
  rw [he] at hkeep hinside
  obtain ⟨ds, fs, rfl, hds, hfs⟩ := List.map_eq_append_iff.mp hall
  obtain ⟨hleft, k, hk, hright⟩ := mends_comment hinside hds hfs
  refine ⟨ds, fs, by rw [hkeep], hleft, hds, ⟨k, hk, hright⟩, hfs, ?_⟩
  have htaken := (docParts_cover false (commentTail_take rest)).joined
  rw [← hds, ← Edit.before_eq] at htaken
  rw [Edit.before_cons, he, Edit.before_append, htaken] at hcs
  exact List.append_cancel_left ((List.append_cancel_left hcs).trans
    (List.take_append_drop _ rest).symm)

/-- A comment after edits, in front of code that is cut into its pieces. -/
theorem cut_comment_mends {fs : List Edit} (hm : Mends .docOpen es) (hopen : rest.head? ≠ some '/')
    (hes : es.map (·.piece) = docParts false (rest.take (commentTail rest)))
    (hfs : fs.map (·.piece) = cut true (rest.drop (commentTail rest)))
    (hdrop : before fs = rest.drop (commentTail rest))
    (hrest : cut true (after fs) = fs.filterMap piece?) :
    cut true (['/', '*', '*'] ++ (after es ++ after fs)) =
        ⟨.docOpen, ['/', '*', '*']⟩ :: (es ++ fs).filterMap piece? ∧
      Text.Agree 4 (['/', '*', '*'] ++ rest) (['/', '*', '*'] ++ (after es ++ after fs)) := by
  have hend : before fs = [] → fs = [] := by
    intro hnil
    rw [← hdrop, hnil, cut] at hfs
    exact List.map_eq_nil_iff.mp hfs
  obtain ⟨hshape, hparts, hagree⟩ := shapeTail_mends hm hopen hes.symm hdrop.symm hend
  refine ⟨?_, hagree.append ['/', '*', '*']⟩
  rw [List.cons_append, List.cons_append, List.cons_append, List.nil_append, cut_code hshape,
    Nat.add_comm 2, List.take_succ_cons, List.take_succ_cons, List.take_left, List.drop_succ_cons,
    List.drop_succ_cons, List.drop_left, List.filterMap_append, ← hparts, ← hrest]
  rfl

/-- The pieces of a source text after edits are the pieces before with their new texts. -/
theorem cut_mends {php : Bool} (hm : Mends last es) (hlast : last.isInner = false)
    (hes : cut php (before es) = es.map (·.piece)) (hends : LiteralsEnd (es.map (·.piece))) :
    cut php (after es) = es.filterMap piece? ∧ Text.Agree 4 (before es) (after es) := by
  generalize hcs : before es = cs at hes
  fun_induction cut php cs generalizing es last with
  | case1 =>
    obtain rfl : es = [] := List.map_eq_nil_iff.mp hes.symm
    exact ⟨by rw [Edit.after, List.flatMap_nil, cut]; rfl, .refl _ _⟩
  | case2 c cs shape n hshape ih =>
    by_cases hdoc : shape = .docComment
    · subst hdoc
      obtain ⟨rest, rfl, rfl, rfl⟩ := shapeTail_docComment hshape
      have hopen : rest.head? ≠ some '/' := by
        intro hslash
        rw [shapeTail_eq (fun h => absurd h (by decide)), if_neg (by decide), commentShape?_doc,
          if_pos hslash] at hshape
        cases hshape
      rw [Nat.add_comm 2] at hes ih
      obtain ⟨ds, fs, rfl, hleft, hds, ⟨k, hk, hright⟩, hfs, hdrop⟩ :=
        mends_first_comment hm hlast hes hcs
      rw [Edit.map_piece_keep, List.map_append] at hends
      obtain ⟨hrest, -⟩ := ih hright hk hends.2.right hdrop hfs.symm
      rw [Edit.after_keep, Edit.after_append, Edit.filterMap_keep (List.cons_ne_nil _ _)]
      exact cut_comment_mends hleft hopen hds hfs hdrop hrest
    · obtain ⟨p, hpiece, hp⟩ := ofShape_single hshape hdoc (c :: cs.take n)
      have hjoined := (ofShape_cover hshape).joined
      rw [hpiece, List.flatMap_singleton] at hjoined
      obtain ⟨k, t⟩ := p
      obtain rfl : t = c :: cs.take n := hjoined
      rw [hpiece] at hes
      obtain ⟨fs, rfl, hm, hfs, hdrop⟩ := mends_first hm hlast hes hcs
      have hcut := ends_of_literalsEnd hshape ((Edit.before_eq fs).symm.trans hdrop) (hpiece ▸ hends)
      obtain ⟨hrest, hagree⟩ := ih hm (isInner_of_isDoc hp) hends.2 hdrop hfs
      rw [Edit.after_keep, Edit.filterMap_keep (List.cons_ne_nil _ _), ← hrest]
      have := cut_code_agree hshape hcut hagree
      rwa [hpiece] at this
  | case3 php c cs hphp hbefore n =>
    rename_i ih
    rw [Bool.eq_false_iff.mpr hphp]
    obtain ⟨fs, rfl, hm, hfs, hdrop⟩ := mends_first hm hlast hes hcs
    obtain ⟨hrest, hagree⟩ := ih hm rfl hends.2 hdrop hfs
    rw [Edit.after_keep, Edit.filterMap_keep (List.cons_ne_nil _ _), ← hrest]
    exact cut_tag_agree hbefore rfl hagree
  | case4 php c cs hphp n hbefore ih =>
    rw [Bool.eq_false_iff.mpr hphp]
    obtain ⟨fs, rfl, hm, hfs, hdrop⟩ := mends_first hm hlast hes hcs
    obtain ⟨hrest, hagree⟩ := ih hm rfl hends.2 hdrop hfs
    rw [Edit.after_keep, Edit.filterMap_keep (List.cons_ne_nil _ _), ← hrest]
    exact cut_html_agree hbefore hagree

end Piece
end PhpDoc
