import PhpDoc.Proofs.CommentBlocks
import PhpDoc.Proofs.Places
/-!
The lines of a tag in their file. Between the tokens of two lines stand as many line breaks as the
lines are apart, and nothing but blanks, stars and text.
-/
namespace PhpDoc

def Kind.isBody (k : Kind) : Bool :=
  [docBlank, docStar, docText].contains k

theorem Kind.isBody_of_isInner {k : Kind} (h : k.isInner = true) (ht : k ≠ .docTag) :
    k.isBody = true := by
  revert h ht
  cases k <;> decide

theorem DocComment.isBreak_iff {t : Token} : isBreak t = true ↔
    t.kind = .docBlank ∧ t.text.toList ∈ [['\n'], ['\r', '\n'], ['\r']] := by
  simp [isBreak, ← String.toList_inj]

namespace Piece

def BreaksAlone (p : Piece) : Prop :=
  p.kind.isBody = true → Text.lineBreaks p.text =
    if p.kind = .docBlank ∧ p.text ∈ [['\n'], ['\r', '\n'], ['\r']] then 1 else 0

theorem BreaksAlone.of_not_mem {p : Piece} (h : ∀ c ∈ p.text, c ≠ '\r' ∧ c ≠ '\n') :
    p.BreaksAlone := by
  intro _
  rw [Text.lineBreaks_eq_zero.mpr h, if_neg]
  rintro ⟨-, hmem⟩
  obtain heq | heq | heq : p.text = ['\n'] ∨ p.text = ['\r', '\n'] ∨ p.text = ['\r'] := by
    simpa using hmem
  all_goals
    rw [heq] at h
    simp at h

theorem take_breakWidth {c : Char} {cs : List Char} (h : 0 < Text.breakWidth (c :: cs)) :
    c :: cs.take (Text.breakWidth (c :: cs) - 1) ∈ [['\n'], ['\r', '\n'], ['\r']] := by
  unfold Text.breakWidth at h ⊢
  split
  case h_4 => exact absurd h (by simp_all)
  all_goals
    rename_i heq
    obtain ⟨rfl, rfl⟩ := List.cons.inj heq
    simp

theorem isCutProperty_breaksAlone : IsCutProperty BreaksAlone where
  outside kind text hdoc hbody := by
    revert hdoc hbody
    cases kind <;> simp [Kind.isBody, Kind.isDoc]
  opener text hbody := by cases hbody
  part atStart c cs kind n hd := by
    cases docTail_cut hd with
    | close | tag => exact fun hbody => by cases hbody
    | lineBreak hbreak =>
      intro _
      have hmem := take_breakWidth hbreak
      rw [if_pos ⟨rfl, hmem⟩]
      generalize c :: cs.take (Text.breakWidth (c :: cs) - 1) = text at hmem
      revert text
      decide
    | blank hbreak hblank =>
      refine .of_not_mem fun d hd => ?_
      have hd' : isDocBlank d = true := by
        rcases List.mem_cons.mp hd with rfl | hd
        · exact hblank
        · exact Text.mem_take_run hd
      constructor <;> rintro rfl <;> cases hd'
    | star hstart hc =>
      refine .of_not_mem ?_
      simp [hc]
    | text => exact .of_not_mem (docTail_docText hd)

end Piece

def Token.piece (t : Token) : Piece :=
  ⟨t.kind, t.text.toList⟩

theorem map_piece_tokenize (source : String) : (tokenize source).toList.map Token.piece =
    Piece.assign none (Piece.cut false source.toList) := by
  have hpieces := congrArg (List.map fun p : Kind × String => (⟨p.1, p.2.toList⟩ : Piece))
    (tokenize_pieces source)
  rw [List.map_map, List.map_map] at hpieces
  exact hpieces.trans (by simp [Function.comp_def])

theorem lined_tokenize (source : String) :
    Piece.Lined ((tokenize source).toList.map Token.piece) := by
  rw [map_piece_tokenize]
  exact Piece.lined_congr (Piece.assign_text _ _) (Piece.cut_lined _ _)

namespace Tokens
variable {ts : Tokens} {i j start stop : Nat} {t : Token}

def breaksBefore (ts : Tokens) (i : Nat) : Nat :=
  (ts.toList.take i).countP DocComment.isBreak

theorem breaksBefore_succ (h : ts[i]? = some t) :
    ts.breaksBefore (i + 1) = ts.breaksBefore i + if DocComment.isBreak t then 1 else 0 := by
  have hget : ts.toList[i]? = some t := by simpa using h
  simp [breaksBefore, List.take_add_one, hget, List.countP_append, List.countP_cons]

theorem breaksBefore_mono (h : i ≤ j) : ts.breaksBefore i ≤ ts.breaksBefore j :=
  (List.take_sublist_take_left h).countP_le

def IsBody (ts : Tokens) (start stop : Nat) : Prop :=
  ∀ i, start ≤ i → i < stop → ∃ k, ts.kind? i = some k ∧ k.isBody = true

theorem lineBreaks_joined {us : List Token} (hlined : Piece.Lined (us.map Token.piece))
    (h : ∀ t ∈ us, Text.lineBreaks t.text.toList = if DocComment.isBreak t then 1 else 0) :
    Text.lineBreaks (Piece.joined (us.map Token.piece)) = us.countP DocComment.isBreak := by
  induction us with
  | nil => rfl
  | cons t us ih =>
    obtain ⟨ht, hus⟩ := List.forall_mem_cons.mp h
    have hbreaks : Text.lineBreaks (Piece.joined ((t :: us).map Token.piece)) =
        Text.lineBreaks t.text.toList + Text.lineBreaks (Piece.joined (us.map Token.piece)) :=
      Text.lineBreaks_append hlined.1
    rw [hbreaks, ht, ih hlined.2 hus, List.countP_cons, Nat.add_comm]

/-- In the body of a tag line breaks can be counted token by token. -/
theorem lineBreaks_body {source : String} {first last : Nat} (hle : first ≤ last)
    (h : (tokenize source).IsBody first last) :
    (tokenize source).breaksBefore last = (tokenize source).breaksBefore first +
      Text.lineBreaks (Piece.joined
        ((((tokenize source).toList.take last).drop first).map Token.piece)) := by
  have hlined := lined_tokenize source
  rw [lineBreaks_joined, breaksBefore, breaksBefore, ← List.countP_append]
  · have hsplit := List.take_append_drop first ((tokenize source).toList.take last)
    rw [List.take_take, Nat.min_eq_left hle] at hsplit
    rw [hsplit]
  · rw [List.map_drop, List.map_take]
    exact (hlined.take last).drop first
  · intro t ht
    obtain ⟨i, hi⟩ := List.mem_iff_getElem?.mp ht
    rw [List.getElem?_drop, List.getElem?_take] at hi
    split at hi
    · rename_i hlt
      have ht' : (tokenize source)[first + i]? = some t := by simpa using hi
      obtain ⟨k, hk, hbody⟩ := h (first + i) (Nat.le_add_right _ _) hlt
      rw [kind?, ht'] at hk
      cases hk
      have hbreaks := Piece.isCutProperty_breaksAlone.tokenize (Array.mem_of_getElem? ht') hbody
      simpa [DocComment.isBreak_iff] using hbreaks
    · cases hi

end Tokens

structure TagLine.Stands (ts : Tokens) (start stop breaks : Nat) (l : TagLine) : Prop where
  token : ∀ i, l.token = some i → start ≤ i ∧ i < stop ∧ ts.breaksBefore i = breaks ∧
    ∃ t, ts[i]? = some t ∧ t.kind = .docText ∧ t.text = l.text
  empty : l.token = none → l.text = ""

theorem TagLine.stands_empty (ts : Tokens) (start stop breaks : Nat) :
    TagLine.Stands ts start stop breaks {} :=
  ⟨fun _ h => (by cases h), fun _ => rfl⟩

structure Tag.Spans (ts : Tokens) (start stop above : Nat) (t : Tag) : Prop where
  body : ts.IsBody start stop
  lines : ∀ n (l : TagLine), t.lines[n]? = some l → l.Stands ts start stop (above + n)

/-- A line of a tag is told by its token. -/
theorem Tag.Spans.index_eq {ts : Tokens} {start stop above : Nat} {tag : Tag}
    (h : tag.Spans ts start stop above) {n n' i : Nat} {l l' : TagLine} (hl : tag.lines[n]? = some l)
    (hi : l.token = some i) (hl' : tag.lines[n']? = some l') (hi' : l'.token = some i) : n = n' := by
  have hbreaks := ((h.lines n l hl).token i hi).2.2.1
  have hbreaks' := ((h.lines n' l' hl').token i hi').2.2.1
  omega

def Tag.LaidOut (ts : Tokens) (t : Tag) : Prop :=
  ∃ start stop above, t.Spans ts start stop above

namespace DocComment
variable {ts : Tokens} {start stop i c : Nat} {parts : List Part}

def Follow (ts : Tokens) : Nat → List Part → Prop
  | _, [] => True
  | i, (j, t) :: ps => (j = i ∧ ts[i]? = some t ∧ t.kind.isInner = true) ∧ Follow ts (i + 1) ps

theorem follow_between
    (h : ∀ j, start ≤ j → j < stop → ∃ k, ts.kind? j = some k ∧ k.isInner = true) :
    Follow ts start (between ts start stop) := by
  unfold between
  generalize hn : stop - start = n
  induction n generalizing start with
  | zero => trivial
  | succ n ih =>
    obtain ⟨k, hk, hinner⟩ := h start (Nat.le_refl start) (by omega)
    obtain ⟨t, ht, rfl⟩ := Option.map_eq_some_iff.mp hk
    rw [List.range'_succ, List.filterMap_cons, ht]
    exact ⟨⟨rfl, ht, hinner⟩, ih (fun j hj hj' => h j (by omega) hj') (by omega)⟩

theorem Follow.upToTag (h : Follow ts i parts) : Follow ts i (upToTag parts) := by
  induction parts generalizing i with
  | nil => trivial
  | cons p ps ih =>
    rw [DocComment.upToTag, List.takeWhile_cons]
    split
    · exact ⟨h.1, ih h.2⟩
    · trivial

theorem Follow.isBody (h : Follow ts i parts) (htag : ∀ p ∈ parts, p.2.kind ≠ .docTag) :
    ts.IsBody i (i + parts.length) := by
  induction parts generalizing i with
  | nil => exact fun j hj hj' => absurd hj' (by simp; omega)
  | cons p ps ih =>
    obtain ⟨⟨-, hp, hinner⟩, hps⟩ := h
    obtain ⟨hptag, hpstag⟩ := List.forall_mem_cons.mp htag
    intro j hj hj'
    rcases Nat.eq_or_lt_of_le hj with rfl | hlt
    · exact ⟨p.2.kind, by simp [Tokens.kind?, hp], Kind.isBody_of_isInner hinner hptag⟩
    · exact ih hps hpstag j hlt (by simp at hj'; omega)

/-- The lines of consecutive parts stand one below the other. -/
theorem linesFrom_stands {line : Option TagLine} (h : Follow ts i parts) (hstart : start ≤ i)
    (hstop : i + parts.length ≤ stop)
    (hline : ∀ l ∈ line, l.Stands ts start stop (ts.breaksBefore i)) :
    ∀ n (l : TagLine), (linesFrom line parts)[n]? = some l →
      l.Stands ts start stop (ts.breaksBefore i + n) := by
  fun_induction linesFrom line parts generalizing i with
  | case1 line =>
    intro n l hl
    cases line with
    | none => cases hl
    | some m =>
      cases n with
      | zero =>
        cases hl
        exact hline l rfl
      | succ n => cases hl
  | case2 line j t parts hk ih =>
    obtain ⟨⟨rfl, ht, -⟩, hparts⟩ := h
    simp only [List.length_cons] at hstop
    have hsucc : ts.breaksBefore (j + 1) = ts.breaksBefore j := by
      rw [Tokens.breaksBefore_succ ht, if_neg (by simp [isBreak, hk]), Nat.add_zero]
    rw [← hsucc]
    refine ih hparts (by omega) (by omega) ?_
    rintro l ⟨⟩
    refine ⟨?_, fun h => by cases h⟩
    rintro k ⟨⟩
    exact ⟨hstart, by omega, hsucc.symm, t, ht, hk, rfl⟩
  | case3 line j t parts hk hbreak ih =>
    obtain ⟨⟨rfl, ht, -⟩, hparts⟩ := h
    simp only [List.length_cons] at hstop
    intro n l hl
    cases n with
    | zero =>
      cases hl
      cases line with
      | none => exact TagLine.stands_empty _ _ _ _
      | some m => exact hline m rfl
    | succ n =>
      have hsucc := Tokens.breaksBefore_succ ht
      rw [if_pos hbreak] at hsucc
      have hrest := ih hparts (by omega) (by omega) (by simp) n l hl
      rwa [hsucc, Nat.add_assoc, Nat.add_comm 1] at hrest
  | case4 line j t parts hk hbreak ih =>
    obtain ⟨⟨rfl, ht, -⟩, hparts⟩ := h
    simp only [List.length_cons] at hstop
    have hsucc : ts.breaksBefore (j + 1) = ts.breaksBefore j := by
      rw [Tokens.breaksBefore_succ ht, if_neg hbreak, Nat.add_zero]
    rw [← hsucc]
    exact ih hparts (by omega) (by omega) (hsucc.symm ▸ hline)

/-- The lines after a tag's name span the parts up to the next tag. -/
theorem spans_upToTag (name : String) (place : Nat) (h : Follow ts i parts) :
    Tag.Spans ts i (i + (upToTag parts).length) (ts.breaksBefore i)
      ⟨name, place, linesFrom (some {}) (upToTag parts)⟩ where
  body := by
    refine h.upToTag.isBody fun p hp => ?_
    simpa using List.all_eq_true.mp List.all_takeWhile p hp
  lines := by
    refine linesFrom_stands h.upToTag (Nat.le_refl i) (Nat.le_refl _) ?_
    rintro l ⟨⟩
    exact TagLine.stands_empty _ _ _ _

theorem spans_dropEmptyEnd {name : String} {place above : Nat} {lines : List TagLine}
    (h : Tag.Spans ts start stop above ⟨name, place, lines⟩) :
    Tag.Spans ts start stop above ⟨name, place, dropEmptyEnd lines⟩ := by
  refine ⟨h.body, fun n l hl => h.lines n l ?_⟩
  obtain ⟨dropped, hdrop⟩ := isPrefix_dropEmptyEnd lines
  rw [← hdrop, List.getElem?_append_left (List.getElem?_eq_some_iff.mp hl).1]
  exact hl

theorem tagOf_laidOut (name : String) (place : Nat) (h : Follow ts i parts) :
    (tagOf name place parts).LaidOut ts := by
  have hspans := spans_dropEmptyEnd (spans_upToTag name place h)
  unfold tagOf
  simp only
  split
  · -- of the lines that are left the first is further down
    obtain ⟨dropped, hdrop⟩ := isSuffix_dropEmptyStart (dropEmptyEnd (linesFrom (some {})
      (upToTag parts)))
    refine ⟨_, _, ts.breaksBefore i + dropped.length, hspans.body, fun n l hl => ?_⟩
    rw [Nat.add_assoc]
    refine hspans.lines _ l ?_
    rw [← hdrop, List.getElem?_append_right (Nat.le_add_right _ _), Nat.add_sub_cancel_left]
    exact hl
  · exact ⟨_, _, _, hspans⟩

theorem tagsFrom_laidOut (h : Follow ts i parts) : ∀ t ∈ tagsFrom parts, t.LaidOut ts := by
  fun_induction tagsFrom parts generalizing i with
  | case1 => simp
  | case2 j t parts hk ih =>
    exact List.forall_mem_cons.mpr ⟨tagOf_laidOut t.text j h.2, ih h.2⟩
  | case3 j t parts hk ih => exact ih h.2

end DocComment

/-- Between the tokens of two lines stands the body of the tag, with as many line breaks as the
lines are apart. -/
theorem Tag.LaidOut.between {ts : Tokens} {t : Tag} (h : t.LaidOut ts) {a b i j : Nat}
    {l m : TagLine} (hab : a ≤ b) (hl : t.lines[a]? = some l) (hi : l.token = some i)
    (hm : t.lines[b]? = some m) (hj : m.token = some j) :
    i ≤ j ∧ ts.IsBody i (j + 1) ∧ ts.breaksBefore (j + 1) = ts.breaksBefore i + (b - a) := by
  obtain ⟨start, stop, above, hbody, hlines⟩ := h
  obtain ⟨hstart, -, hbreaks, -⟩ := (hlines a l hl).token i hi
  obtain ⟨-, hstop, hbreaks', u, hu, hk, -⟩ := (hlines b m hm).token j hj
  have hle : i ≤ j := by
    rcases Nat.lt_or_ge j i with hlt | hge
    · -- then there is no line break in between, and the two lines are one
      have hmono : ts.breaksBefore j ≤ ts.breaksBefore i :=
        Tokens.breaksBefore_mono (Nat.le_of_lt hlt)
      obtain rfl : a = b := by omega
      obtain rfl : l = m := Option.some.inj (hl.symm.trans hm)
      obtain rfl : i = j := Option.some.inj (hi.symm.trans hj)
      exact Nat.le_refl i
    · exact hge
  refine ⟨hle, fun n hn hn' => hbody n (by omega) (by omega), ?_⟩
  rw [Tokens.breaksBefore_succ hu, if_neg (by simp [DocComment.isBreak, hk])]
  omega

/-- Only the opener of a documentation comment knows an end. -/
theorem kind?_of_commentEnd {source : String} {o c : Nat}
    (h : (tokenize source)[o]?.bind (·.commentEnd) = some c) :
    (tokenize source).kind? o = some .docOpen := by
  obtain ⟨t', ht', hend⟩ := Option.bind_eq_some_iff.mp h
  rw [tokenize, Tokens.getElem?_withExtents] at ht'
  rw [tokenize, Tokens.kind?_withExtents]
  obtain ⟨t, ht, rfl⟩ := Option.map_eq_some_iff.mp ht'
  split at hend
  · rename_i hk
    simp [Tokens.kind?, ht, hk]
  · -- a declaration sets no end, and before there is none
    obtain ⟨_, _, hdeclare⟩ := Tokens.declare_eq _ o t
    have hplain := (Tokens.withGroups_unmarked _ _ t (Array.mem_of_getElem? ht)).commentEnd
    rw [hdeclare, hplain] at hend
    cases hend

/-- Only inner parts stand between the opener and the end of a comment of a file. -/
theorem follow_of_commentEnd {source : String} {o c : Nat}
    (h : (tokenize source)[o]?.bind (·.commentEnd) = some c) :
    DocComment.Follow (tokenize source) (o + 1)
      (DocComment.between (tokenize source) (o + 1) c) := by
  have hopen := kind?_of_commentEnd h
  exact DocComment.follow_between ((tokenize_enclosed source).stretch hopen
    ((tokenize_opened source o hopen).symm.trans h)).inner

/-- The lines of the tags of a comment of a file stand one below the other. -/
theorem DocComment.read_laidOut {source : String} {opener : Nat} {c : DocComment}
    (h : read (tokenize source) opener = .ok c) : ∀ t ∈ c.tags, t.LaidOut (tokenize source) := by
  unfold read at h
  split at h
  · rename_i closer hend
    cases h
    have hfollow := follow_of_commentEnd hend
    refine List.forall_mem_append.mpr ⟨?_, tagsFrom_laidOut hfollow⟩
    split
    · simpa using tagOf_laidOut "" opener hfollow
    · simp
  · cases h

end PhpDoc
