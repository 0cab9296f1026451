import PhpDoc.Proofs.Comments
import PhpDoc.Proofs.Marks
import PhpDoc.Proofs.Steps
/-!
Documentation comments as stretches of tokens. Nothing but parts of a comment stands between its
opener and its closer, no part stands elsewhere, and a comment that is not closed goes on to the end
of the file.
-/
namespace PhpDoc

namespace Kind

def isInner (k : Kind) : Bool :=
  [docBlank, docStar, docTag, docText].contains k

def leavesOpen (k : Kind) : Bool :=
  k == docOpen || k.isInner

def needsOpen (k : Kind) : Bool :=
  k == docClose || k.isInner

/-- Kinds of which those that need an open comment stand in one and the others do not; `inside`
tells whether a comment is open before the first. -/
def Enclosed : Bool → List Kind → Prop
  | _, [] => True
  | inside, k :: ks => k.needsOpen = inside ∧ Enclosed k.leavesOpen ks

theorem needsOpen_of_isDoc {k : Kind} (h : k.isDoc = false) :
    k.needsOpen = false ∧ k.leavesOpen = false := by
  revert h
  cases k <;> decide

theorem isDoc_of_isInner {k : Kind} (h : k.isInner = true) : k ≠ .docClose ∧ k.isDoc = true := by
  revert h
  cases k <;> decide

theorem Enclosed.cons_of_isDoc {k : Kind} {ks : List Kind} (hk : k.isDoc = false)
    (h : Enclosed false ks) : Enclosed false (k :: ks) := by
  obtain ⟨hneeds, hleaves⟩ := needsOpen_of_isDoc hk
  exact ⟨hneeds, by rwa [hleaves]⟩

theorem Enclosed.append {inside : Bool} {ks ks' : List Kind} {k : Kind} (h : Enclosed inside ks)
    (hlast : ks.getLast? = some k) (h' : Enclosed k.leavesOpen ks') :
    Enclosed inside (ks ++ ks') := by
  induction ks generalizing inside with
  | nil => cases hlast
  | cons first ks ih =>
    refine ⟨h.1, ?_⟩
    cases ks with
    | nil =>
      cases hlast
      exact h'
    | cons second ks =>
      rw [List.getLast?_cons_cons] at hlast
      exact ih h.2 hlast

theorem Enclosed.first {inside : Bool} {ks : List Kind} {k : Kind} (h : Enclosed inside ks)
    (hk : ks[0]? = some k) : k.needsOpen = inside := by
  cases ks with
  | nil => cases hk
  | cons first ks =>
    cases hk
    exact h.1

theorem Enclosed.step {inside : Bool} {ks : List Kind} {i : Nat} {k k' : Kind}
    (h : Enclosed inside ks) (hk : ks[i]? = some k) (hk' : ks[i + 1]? = some k') :
    k'.needsOpen = k.leavesOpen := by
  induction ks generalizing inside i with
  | nil => cases hk
  | cons first ks ih =>
    cases i with
    | zero =>
      cases hk
      exact h.2.first hk'
    | succ i => exact ih h.2 hk hk'

end Kind

namespace Piece

theorem commentTail_ends {cs : List Char} (h : cs.drop (commentTail cs) ≠ []) :
    ['*', '/'] <:+ cs.take (commentTail cs) := by
  fun_induction commentTail cs with
  | case1 cs => exact List.suffix_rfl
  | case2 c cs _ ih => exact (ih h).trans (List.suffix_cons c _)
  | case3 => exact absurd rfl h

/-- A text that ends with the end of a comment still does without its first character. -/
theorem ends_tail {c : Char} {cs : List Char} (h : ['*', '/'] <:+ c :: cs) :
    ['*', '/'] <:+ cs ∨ c = '*' ∧ cs = ['/'] := by
  rcases List.suffix_cons_iff.mp h with h | h
  · cases h
    exact .inr ⟨rfl, rfl⟩
  · exact .inl h

theorem ends_beforeEnd {accepts : Char → Bool} {cs : List Char} {n : Nat}
    (h : ['*', '/'] <:+ cs) (hn : n ≤ beforeEnd accepts cs) : ['*', '/'] <:+ cs.drop n := by
  fun_induction beforeEnd accepts cs generalizing n with
  | case1 | case3 | case4 =>
    obtain rfl : n = 0 := by omega
    exact h
  | case2 c cs hend _ ih =>
    cases n with
    | zero => exact h
    | succ n =>
      rcases ends_tail h with h | ⟨rfl, rfl⟩
      · exact ih h (by omega)
      · exact (hend [] rfl rfl).elim

theorem ends_run {p : Char → Bool} (hp : p '*' = false) {cs : List Char} (h : ['*', '/'] <:+ cs) :
    ['*', '/'] <:+ cs.drop (Text.run p cs) := by
  induction cs with
  | nil => exact h
  | cons c cs ih =>
    rw [Text.run, List.takeWhile_cons]
    split
    · rename_i hc
      rcases ends_tail h with h | ⟨rfl, -⟩
      · exact ih h
      · rw [hp] at hc
        cases hc
    · exact h

theorem ends_breakWidth {c : Char} {cs : List Char} (h : ['*', '/'] <:+ cs) :
    ['*', '/'] <:+ cs.drop (Text.breakWidth (c :: cs) - 1) := by
  unfold Text.breakWidth
  split
  · rename_i heq
    obtain ⟨rfl, rfl⟩ := List.cons.inj heq
    rcases ends_tail h with h | ⟨hc, -⟩
    · exact h
    · exact absurd hc (by decide)
  all_goals exact h

section
variable {atStart : Bool} {c : Char} {cs : List Char} {kind : Kind} {n : Nat}

theorem docTail_inner (h : docTail atStart c cs = (kind, n)) (hk : kind ≠ .docClose) :
    kind.isInner = true := by
  cases docTail_cut h with
  | close => exact absurd rfl hk
  | lineBreak | blank | star | tag | text => rfl

/-- No part but the closer takes a character of the end of a comment. -/
theorem docTail_ends (h : docTail atStart c cs = (kind, n)) (hk : kind ≠ .docClose)
    (hends : ['*', '/'] <:+ c :: cs) : ['*', '/'] <:+ cs.drop n := by
  have hcs : ['*', '/'] <:+ cs := by
    rcases ends_tail hends with hcs | ⟨hc, hslash⟩
    · exact hcs
    · exact absurd (kind_of_end h hc (hslash ▸ rfl)) hk
  cases docTail_cut h with
  | close => exact absurd rfl hk
  | lineBreak => exact ends_breakWidth hcs
  | blank => exact ends_run (by decide) hcs
  | star => exact hcs
  | tag => exact ends_beforeEnd hcs (Nat.le_refl _)
  | text => exact ends_beforeEnd hcs (length_docText_le cs)

end

theorem docParts_enclosed (atStart : Bool) (cs : List Char) :
    Kind.Enclosed true ((docParts atStart cs).map (·.kind)) := by
  fun_induction docParts atStart cs with
  | case1 => trivial
  | case2 atStart c cs kind n hd next ih =>
    by_cases hk : kind = .docClose
    · subst hk
      exact ⟨rfl, trivial⟩
    · have hinner := docTail_inner hd hk
      rw [if_neg hk]
      refine ⟨by simp [Kind.needsOpen, hinner], ?_⟩
      rw [Kind.leavesOpen, hinner, Bool.or_true]
      exact ih

/-- The parts of a comment that has an end end with its closer. -/
theorem docParts_ends (atStart : Bool) {cs : List Char} (h : ['*', '/'] <:+ cs) :
    (docParts atStart cs).getLast?.map (·.kind) = some .docClose := by
  fun_induction docParts atStart cs with
  | case1 => simp at h
  | case2 atStart c cs kind n hd next ih =>
    by_cases hk : kind = .docClose
    · subst hk
      rfl
    · rw [if_neg hk]
      have hrest := ih (docTail_ends hd hk h)
      cases hparts : docParts next (cs.drop n) with
      | nil =>
        rw [hparts] at hrest
        cases hrest
      | cons p ps =>
        rw [hparts] at hrest
        rw [List.getLast?_cons_cons]
        exact hrest

/-- What follows a comment stands outside of it; nothing follows one that has no end. -/
theorem docComment_enclosed {rest : List Char} {ks : List Kind} (h : Kind.Enclosed false ks)
    (hend : rest.drop (commentTail rest) = [] → ks = []) :
    Kind.Enclosed false
      ((.docOpen :: (docParts false (rest.take (commentTail rest))).map (·.kind)) ++ ks) := by
  have hcomment : Kind.Enclosed false
      (.docOpen :: (docParts false (rest.take (commentTail rest))).map (·.kind)) :=
    ⟨rfl, docParts_enclosed false _⟩
  by_cases hrest : rest.drop (commentTail rest) = []
  · rw [hend hrest, List.append_nil]
    exact hcomment
  · refine hcomment.append (k := .docClose) ?_ h
    have hlast := docParts_ends false (commentTail_ends hrest)
    rw [List.getLast?_cons, List.getLast?_map, hlast]
    rfl

theorem cut_enclosed (php : Bool) (cs : List Char) :
    Kind.Enclosed false ((cut php cs).map (·.kind)) := by
  fun_induction cut php cs with
  | case1 => trivial
  | case2 c cs shape n h ih =>
    rw [List.map_append]
    cases shape with
    | plain kind => exact ih.cons_of_isDoc (shapeTail_isDoc h)
    | name => exact ih.cons_of_isDoc (nameKind_isDoc _)
    | sign => exact ih.cons_of_isDoc (ofSign_isDoc _)
    | docComment =>
      obtain ⟨rest, rfl, rfl, rfl⟩ := shapeTail_docComment h
      rw [Nat.add_comm 2]
      rw [Nat.add_comm 2] at ih
      refine docComment_enclosed ih fun hrest => ?_
      rw [List.drop_succ_cons, List.drop_succ_cons, hrest, cut]
      rfl
  | case3 | case4 => exact Kind.Enclosed.cons_of_isDoc rfl ‹_›

theorem assign_enclosed {inside : Bool} (before : Option Kind) {ps : List Piece}
    (h : Kind.Enclosed inside (ps.map (·.kind))) :
    Kind.Enclosed inside ((assign before ps).map (·.kind)) := by
  induction ps generalizing inside before with
  | nil => trivial
  | cons p ps ih =>
    rw [assign]
    split
    · exact ⟨h.1, ih before h.2⟩
    · rename_i htrivia
      have hp := isDoc_of_not_isTrivia htrivia
      obtain ⟨hneeds, hleaves⟩ := Kind.needsOpen_of_isDoc hp
      obtain rfl : false = inside := hneeds ▸ h.1
      exact Kind.Enclosed.cons_of_isDoc (role_isDoc hp) (ih _ (hleaves ▸ h.2))

end Piece

namespace Tokens
variable {ts : Tokens} {i o c : Nat}

def Enclosed (ts : Tokens) : Prop :=
  Kind.Enclosed false (ts.toList.map (·.kind))

theorem kind?_eq_getElem? (ts : Tokens) (i : Nat) : ts.kind? i = (ts.toList.map (·.kind))[i]? := by
  simp [kind?]

theorem Enclosed.first (h : ts.Enclosed) {k : Kind} (hk : ts.kind? 0 = some k) :
    k.needsOpen = false :=
  Kind.Enclosed.first h (kind?_eq_getElem? ts 0 ▸ hk)

theorem Enclosed.step (h : ts.Enclosed) {k k' : Kind} (hk : ts.kind? i = some k)
    (hk' : ts.kind? (i + 1) = some k') : k'.needsOpen = k.leavesOpen :=
  Kind.Enclosed.step h (kind?_eq_getElem? ts i ▸ hk) (kind?_eq_getElem? ts (i + 1) ▸ hk')

theorem exists_kind? (h : i < ts.size) : ∃ k, ts.kind? i = some k :=
  ⟨ts[i].kind, by simp [kind?, h]⟩

structure Stretch (ts : Tokens) (o i : Nat) : Prop where
  opener : ts.kind? o = some .docOpen
  lt : o < i
  inner : ∀ j, o < j → j < i → ∃ k, ts.kind? j = some k ∧ k.isInner = true

theorem Stretch.begin (h : ts.kind? o = some .docOpen) : ts.Stretch o (o + 1) :=
  ⟨h, Nat.lt_succ_self o, fun j hj hj' => by omega⟩

theorem Stretch.next (h : ts.Stretch o i) {k : Kind} (hk : ts.kind? i = some k)
    (hinner : k.isInner = true) : ts.Stretch o (i + 1) where
  opener := h.opener
  lt := Nat.lt_succ_of_lt h.lt
  inner j hj hji := by
    rcases Nat.lt_succ_iff_lt_or_eq.mp hji with hlt | rfl
    · exact h.inner j hj hlt
    · exact ⟨k, hk, hinner⟩

theorem Stretch.leaves (h : ts.Stretch o (i + 1)) :
    ∃ k, ts.kind? i = some k ∧ k.leavesOpen = true := by
  rcases Nat.lt_succ_iff_lt_or_eq.mp h.lt with hlt | rfl
  · obtain ⟨k, hk, hinner⟩ := h.inner i hlt (Nat.lt_succ_self i)
    exact ⟨k, hk, by simp [Kind.leavesOpen, hinner]⟩
  · exact ⟨.docOpen, h.opener, rfl⟩

/-- What needs an open comment stands in a stretch of one. -/
theorem Enclosed.exists_stretch (h : ts.Enclosed) {k : Kind} (hk : ts.kind? i = some k)
    (hneeds : k.needsOpen = true) : ∃ o, ts.Stretch o i := by
  induction i generalizing k with
  | zero =>
    rw [h.first hk] at hneeds
    cases hneeds
  | succ i ih =>
    obtain ⟨k', hk'⟩ := exists_kind? (Nat.lt_of_succ_lt (lt_size_of_kind? hk))
    have hleaves := h.step hk' hk
    rw [hneeds, Kind.leavesOpen, eq_comm, Bool.or_eq_true] at hleaves
    rcases hleaves with hopen | hinner
    · exact ⟨i, .begin (by rw [hk', eq_of_beq hopen])⟩
    · obtain ⟨o, ho⟩ := ih hk' (by simp [Kind.needsOpen, hinner])
      exact ⟨o, ho.next hk' hinner⟩

theorem Stretch.openerBefore_eq (h : ts.Stretch o i) : DocComment.openerBefore ts i = some o := by
  induction i with
  | zero => exact absurd h.lt (Nat.not_lt_zero o)
  | succ i ih =>
    rw [DocComment.openerBefore]
    rcases Nat.lt_succ_iff_lt_or_eq.mp h.lt with hlt | rfl
    · obtain ⟨k, hk, hinner⟩ := h.inner i hlt (Nat.lt_succ_self i)
      rw [if_neg (by rintro he; rw [he] at hk; cases hk; cases hinner)]
      exact ih ⟨h.opener, hlt, fun j hj hji => h.inner j hj (Nat.lt_succ_of_lt hji)⟩
    · rw [if_pos h.opener]

theorem commentEnd_eq (ts : Tokens) (i : Nat) : ts.commentEnd i =
    (ts.kind? i).bind fun k =>
      if k = .docClose then some i else if k.isDoc then ts.commentEnd (i + 1) else none := by
  rw [commentEnd]
  by_cases hi : i < ts.size
  · simp [kind?, hi]
  · simp [kind?, hi]

/-- Where a comment ends is told by the kinds of the tokens. -/
theorem commentEnd_congr {us : Tokens} (h : ts.kind? = us.kind?) (i : Nat) :
    ts.commentEnd i = us.commentEnd i := by
  induction hn : ts.size - i using Nat.strongRecOn generalizing i with
  | _ n ih =>
    rw [commentEnd_eq ts, commentEnd_eq us, ← h]
    cases hk : ts.kind? i with
    | none => rfl
    | some k =>
      have hi := lt_size_of_kind? hk
      simp only [Option.bind_some, ih (ts.size - (i + 1)) (by omega) (i + 1) rfl]

theorem commentEnd_spec (h : ts.commentEnd i = some c) : i ≤ c ∧ ts.kind? c = some .docClose ∧
    ∀ j, i ≤ j → j < c → ∃ k, ts.kind? j = some k ∧ k.isDoc = true ∧ k ≠ .docClose := by
  fun_induction commentEnd ts i with
  | case1 i hi hk =>
    cases h
    refine ⟨Nat.le_refl _, by simp [kind?, hi, hk], fun j hj hj' => by omega⟩
  | case2 i hi hk hdoc ih =>
    obtain ⟨hle, hc, hinner⟩ := ih h
    refine ⟨by omega, hc, fun j hj hjc => ?_⟩
    rcases Nat.eq_or_lt_of_le hj with rfl | hlt
    · exact ⟨ts[i].kind, by simp [kind?, hi], hdoc, hk⟩
    · exact hinner j hlt hjc
  | case3 | case4 => cases h

theorem Stretch.commentEnd_eq (h : ts.Stretch o c) (hc : ts.kind? c = some .docClose) {i : Nat}
    (hi : o < i) (hic : i ≤ c) : ts.commentEnd i = some c := by
  rw [Tokens.commentEnd_eq]
  rcases Nat.eq_or_lt_of_le hic with rfl | hlt
  · rw [hc]
    rfl
  · obtain ⟨k, hk, hinner⟩ := h.inner i hi hlt
    obtain ⟨hclose, hdoc⟩ := Kind.isDoc_of_isInner hinner
    rw [hk, Option.bind_some, if_neg hclose, if_pos hdoc]
    exact h.commentEnd_eq hc (Nat.lt_succ_of_lt hi) hlt
termination_by c - i

/-- A comment goes on with inner parts as long as it is not closed. -/
theorem Enclosed.stretch_of_open (h : ts.Enclosed) (ho : ts.kind? o = some .docOpen) (hlt : o < c)
    (hopen : ∀ j, o < j → j < c → ∃ k, ts.kind? j = some k ∧ k ≠ .docClose) : ts.Stretch o c := by
  suffices ∀ i, o < i → i ≤ c → ts.Stretch o i from this c hlt (Nat.le_refl c)
  intro i hi hic
  induction i with
  | zero => omega
  | succ i ih =>
    rcases Nat.lt_succ_iff_lt_or_eq.mp hi with hlt | rfl
    · -- after an inner part only what needs an open comment may stand
      have hbefore := ih hlt (by omega)
      obtain ⟨k, hk, hclose⟩ := hopen i hlt hic
      refine hbefore.next hk ?_
      obtain ⟨j, rfl⟩ : ∃ j, i = j + 1 := ⟨i - 1, by omega⟩
      obtain ⟨k', hk', hleaves⟩ := hbefore.leaves
      have hneeds := (h.step hk' hk).trans hleaves
      simpa [Kind.needsOpen, hclose] using hneeds
    · exact .begin ho

/-- Only inner parts stand between the opener and the end of a comment. -/
theorem Enclosed.stretch (h : ts.Enclosed) (ho : ts.kind? o = some .docOpen)
    (hc : ts.commentEnd (o + 1) = some c) : ts.Stretch o c := by
  obtain ⟨hle, -, hdocs⟩ := commentEnd_spec hc
  refine h.stretch_of_open ho hle fun j hj hjc => ?_
  obtain ⟨k, hk, -, hclose⟩ := hdocs j hj hjc
  exact ⟨k, hk, hclose⟩

def Opened (ts : Tokens) : Prop :=
  ∀ o, ts.kind? o = some .docOpen → ts[o]?.bind (·.commentEnd) = ts.commentEnd (o + 1)

/-- Every documentation comment that ends has begun, and can be read. -/
def Commented (ts : Tokens) : Prop :=
  ∀ i, ts.kind? i = some .docClose →
    ∃ o c, DocComment.openerBefore ts i = some o ∧ DocComment.read ts o = .ok c

theorem Enclosed.commented (h : ts.Enclosed) (hopened : ts.Opened) : ts.Commented := by
  intro i hi
  obtain ⟨o, ho⟩ := h.exists_stretch hi rfl
  have hend := ho.commentEnd_eq hi (Nat.lt_succ_self o) ho.lt
  refine ⟨o, DocComment.ofParts o (DocComment.between ts (o + 1) i), ho.openerBefore_eq, ?_⟩
  rw [DocComment.read, hopened o ho.opener, hend]

end Tokens

/-- A comment is looked up from its closer. -/
theorem DocComment.exists_of_openerOf {ts : Tokens} {i o : Nat} (h : openerOf ts i = some o) :
    ∃ j, ts.kind? j = some .docClose ∧ openerBefore ts j = some o := by
  fun_induction openerOf ts i with
  | case1 | case2 | case7 | case8 => cases h
  | case3 | case4 | case6 => rename_i ih; exact ih h
  | case5 i t ht hk => exact ⟨i, by simp [Tokens.kind?, ht, hk], h⟩

/-- Parts of documentation comments stand in such comments of the source text, and nothing else
does. -/
theorem tokenize_enclosed (source : String) : (tokenize source).Enclosed := by
  have hkinds := congrArg (List.map (·.1)) (tokenize_pieces source)
  rw [List.map_map, List.map_map] at hkinds
  have hpieces := Piece.assign_enclosed none (Piece.cut_enclosed false source.toList)
  rw [Tokens.Enclosed]
  exact hkinds ▸ hpieces

theorem tokenize_opened (source : String) : (tokenize source).Opened := by
  intro o ho
  rw [tokenize, Tokens.getElem?_withExtents,
    Tokens.commentEnd_congr (Tokens.kind?_withExtents _)]
  rw [tokenize, Tokens.kind?_withExtents] at ho
  obtain ⟨t, ht, hk⟩ := Option.map_eq_some_iff.mp ho
  simp [ht, hk]

/-- Every documentation comment of a source text that ends can be read. -/
theorem tokenize_commented (source : String) : (tokenize source).Commented :=
  (tokenize_enclosed source).commented (tokenize_opened source)

end PhpDoc
