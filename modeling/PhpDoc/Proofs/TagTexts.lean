import PhpDoc.Proofs.Arrange
import PhpDoc.Proofs.TextLines
import Mathlib.Algebra.GroupWithZero.Nat
import Mathlib.Data.List.Nodup
/-!
What a documentation comment says is read completely. Every text is that of one line of one tag, and
the lines of a tag stand as far below its name in the file as they do in the tag.
-/
namespace PhpDoc

theorem isBreak_piece (t : Token) : t.piece.isBreak = DocComment.isBreak t := by
  rw [Bool.eq_iff_iff, Piece.isBreak_iff, DocComment.isBreak_iff]
  rfl

theorem fills_piece (full : Bool) (t : Token) : t.piece.fills full = (t.kind == .docText ||
    (full && (t.kind == .docStar || t.kind == .docBlank && !DocComment.isBreak t))) := by
  rw [Piece.fills, isBreak_piece]
  rfl

namespace DocComment
variable {ts : Tokens} {start stop i : Nat} {parts : List Part}

abbrev pieces (parts : List Part) : List Piece :=
  parts.map (·.2.piece)

def placesOf (k : Kind) (parts : List Part) : List Nat :=
  (parts.filter (·.2.kind = k)).map (·.1)

def sources (lines : List TagLine) : List Nat :=
  lines.filterMap (·.token)

@[simp]
theorem sources_cons (l : TagLine) (ls : List TagLine) :
    sources (l :: ls) = l.token.toList ++ sources ls := by
  cases h : l.token <;> simp [sources, h]

@[simp]
theorem placesOf_cons (k : Kind) (i : Nat) (t : Token) (parts : List Part) :
    placesOf k ((i, t) :: parts) = (if t.kind = k then [i] else []) ++ placesOf k parts := by
  by_cases h : t.kind = k <;> simp [placesOf, h]

/-- Every text of the body of a tag becomes the text of a line. -/
theorem sources_linesFrom {full : Bool} {line : Option TagLine}
    (hone : Piece.OneText full (pieces parts)) (hbody : ∀ p ∈ parts, p.2.kind.isBody = true)
    (hline : full = false → ∀ l ∈ line, l.token = none) :
    sources (linesFrom line parts) = sources line.toList ++ placesOf .docText parts := by
  fun_induction linesFrom line parts generalizing full with
  | case1 line => simp [placesOf]
  | case2 line i t parts hk ih =>
    obtain ⟨hfull, hrest⟩ := hone
    have hempty : sources line.toList = [] := by
      cases line with
      | none => rfl
      | some l => simp [sources, hline (by simpa [hk, Token.piece] using hfull) l rfl]
    have hfills : t.piece.fills full = true := by simp [fills_piece, hk]
    rw [hfills] at hrest
    rw [ih hrest (List.forall_mem_cons.mp hbody).2 (by simp), hempty]
    simp [hk, sources]
  | case3 line i t parts hk hbreak ih =>
    have hfills : t.piece.fills full = false := by
      simp [fills_piece, hbreak, (isBreak_iff.mp hbreak).1]
    have hrest := hone.2
    rw [hfills] at hrest
    rw [sources_cons, ih hrest (List.forall_mem_cons.mp hbody).2 (by simp)]
    cases line with
    | none => simp [hk, sources]
    | some l => simp [hk, sources_cons l []]
  | case4 line i t parts hk hbreak ih =>
    obtain ⟨ht, hparts⟩ := List.forall_mem_cons.mp hbody
    have hfills : t.piece.fills full = full := by
      have hkind : t.kind = .docBlank ∨ t.kind = .docStar := by
        simpa [Kind.isBody, hk] using ht
      rw [Bool.not_eq_true] at hbreak
      rcases hkind with hkind | hkind <;> simp [fills_piece, hbreak, hkind]
    have hrest := hone.2
    rw [hfills] at hrest
    rw [ih hrest hparts hline]
    simp [hk]

def Tells (l : TagLine) : Prop :=
  l.text = "" → l.token = none

theorem sources_dropEmptyEnd {lines : List TagLine} (h : ∀ l ∈ lines, Tells l) :
    sources (dropEmptyEnd lines) = sources lines := by
  fun_induction dropEmptyEnd lines with
  | case1 => rfl
  | case2 l ls m hdrop hm ih =>
    obtain ⟨hl, hls⟩ := List.forall_mem_cons.mp h
    have hmem : m ∈ ls := (isPrefix_dropEmptyEnd ls).subset (by simp [hdrop])
    rw [sources_cons, sources_cons, ← ih hls, hdrop]
    simp [sources, hls m hmem hm]
  | case3 l ls m hdrop hm ih =>
    rw [sources_cons l ls, ← ih (List.forall_mem_cons.mp h).2, hdrop, sources_cons]
  | case4 l ls ih =>
    rename_i ih'
    rw [sources_cons, sources_cons, ih' (List.forall_mem_cons.mp h).2]

theorem sources_dropEmptyStart {lines : List TagLine} (h : ∀ l ∈ lines, Tells l) :
    sources (dropEmptyStart lines) = sources lines := by
  fun_induction dropEmptyStart lines with
  | case1 | case2 | case4 => rfl
  | case3 l ls hne hempty ih =>
    obtain ⟨hl, hls⟩ := List.forall_mem_cons.mp h
    rw [sources_cons, hl hempty, ih hls]
    rfl

theorem Follow.of_mem (h : Follow ts i parts) :
    ∀ p ∈ parts, ts[p.1]? = some p.2 ∧ p.2.kind.isInner = true := by
  induction parts generalizing i with
  | nil => simp
  | cons p parts ih =>
    obtain ⟨⟨hi, hp⟩, hparts⟩ := h
    exact List.forall_mem_cons.mpr ⟨hi ▸ hp, ih hparts⟩

theorem upToTag_cons (i : Nat) (t : Token) (parts : List Part) : upToTag ((i, t) :: parts) =
    if t.kind = .docTag then [] else (i, t) :: upToTag parts := by
  by_cases h : t.kind = .docTag <;> simp [upToTag, h]

theorem not_docTag_of_upToTag : ∀ p ∈ upToTag parts, p.2.kind ≠ .docTag := by
  intro p hp
  simpa using List.all_eq_true.mp List.all_takeWhile p hp

def Spoken (ts : Tokens) : Prop :=
  ∀ (i : Nat) (t : Token), ts[i]? = some t → t.piece.Speaks

theorem tells_of_spans {t : Tag} {above : Nat} (hts : Spoken ts)
    (h : t.Spans ts start stop above) : ∀ l ∈ t.lines, Tells l := by
  intro l hl hempty
  obtain ⟨n, hn⟩ := List.mem_iff_getElem?.mp hl
  cases htoken : l.token with
  | none => rfl
  | some j =>
    obtain ⟨-, -, -, u, hu, hk, htext⟩ := (h.lines n l hn).token j htoken
    refine absurd ?_ ((hts j u hu).nonempty (.inl hk))
    simp [Token.piece, htext, hempty]

/-- A tag has the texts up to the next one. -/
theorem sources_tagOf (hts : Spoken ts) (h : Follow ts i parts)
    (hone : Piece.OneText false (pieces parts)) (name : String) (place : Nat) :
    sources (tagOf name place parts).lines = placesOf .docText (upToTag parts) ∧
      ∀ l ∈ (tagOf name place parts).lines, Tells l := by
  have htells := tells_of_spans hts (spans_upToTag name place h)
  have hend := (isPrefix_dropEmptyEnd (linesFrom (some {}) (upToTag parts))).subset
  have hup : Piece.OneText false (pieces (upToTag parts)) := by
    have hsplit : pieces parts = pieces (upToTag parts) ++
        pieces (parts.dropWhile fun p => p.2.kind != .docTag) := by
      rw [pieces, pieces, pieces, ← List.map_append, upToTag, List.takeWhile_append_dropWhile]
    exact (hsplit ▸ hone).left
  have hbody : ∀ p ∈ upToTag parts, p.2.kind.isBody = true := fun p hp =>
    Kind.isBody_of_isInner (h.upToTag.of_mem p hp).2 (not_docTag_of_upToTag p hp)
  have hsources : sources (dropEmptyEnd (linesFrom (some {}) (upToTag parts))) =
      placesOf .docText (upToTag parts) := by
    rw [sources_dropEmptyEnd htells, sources_linesFrom hup hbody (by simp)]
    rfl
  unfold tagOf
  dsimp only
  split
  · have hstart := (isSuffix_dropEmptyStart (dropEmptyEnd (linesFrom (some {})
      (upToTag parts)))).subset
    exact ⟨(sources_dropEmptyStart fun l hl => htells l (hend hl)).trans hsources,
      fun l hl => htells l (hend (hstart hl))⟩
  · exact ⟨hsources, fun l hl => htells l (hend hl)⟩

/-- The texts among some parts are those before the first tag and those of the tags. -/
theorem placesOf_docText (hts : Spoken ts) {full : Bool} (h : Follow ts i parts)
    (hone : Piece.OneText full (pieces parts)) : placesOf .docText parts =
      placesOf .docText (upToTag parts) ++ (tagsFrom parts).flatMap fun t => sources t.lines := by
  induction parts generalizing full i with
  | nil => rfl
  | cons p parts ih =>
    obtain ⟨j, t⟩ := p
    rw [placesOf_cons, ih h.2 hone.2, tagsFrom, upToTag_cons]
    by_cases hk : t.kind = .docTag
    · have hone' : Piece.OneText false (pieces parts) := by
        have hfills := (Piece.fills_eq_false full (p := t.piece) (.inr (.inr (.inl hk)))).1
        exact hfills ▸ hone.2
      simp [hk, (sources_tagOf hts h.2 hone' t.text j).1, placesOf]
    · simp [hk]

theorem sources_ofParts (hts : Spoken ts) (h : Follow ts i parts)
    (hone : Piece.OneText false (pieces parts)) (place : Nat) :
    ((ofParts place parts).tags.flatMap fun t => sources t.lines) = placesOf .docText parts := by
  obtain ⟨hleading, htells⟩ := sources_tagOf hts h hone "" place
  rw [placesOf_docText hts h hone, ofParts, List.flatMap_append, ← hleading]
  split
  · simp
  · -- the leading text is left out if there is none
    rename_i hempty
    have hlines : ∀ l ∈ (tagOf "" place parts).lines, l.text = "" := by simpa using hempty
    have hnone : sources (tagOf "" place parts).lines = [] :=
      List.filterMap_eq_nil_iff.mpr fun l hl => htells l hl (hlines l hl)
    simp [hnone]

def Heads (ts : Tokens) (t : Tag) : Prop :=
  ∃ u stop, ts[t.place]? = some u ∧ u.kind = .docTag ∧ u.text = t.name ∧
    t.Spans ts (t.place + 1) stop (ts.breaksBefore (t.place + 1))

theorem heads_of_tagsFrom (hts : Spoken ts) (h : Follow ts i parts) :
    ∀ t ∈ tagsFrom parts, t.name ≠ "" ∧ Heads ts t := by
  fun_induction tagsFrom parts generalizing i with
  | case1 => simp
  | case2 j t parts hk ih =>
    obtain ⟨⟨rfl, ht, -⟩, hparts⟩ := h
    have hname : t.text ≠ "" := by
      have htext := (hts j t ht).nonempty (.inr hk)
      simpa [Token.piece, String.toList_eq_nil_iff] using htext
    refine List.forall_mem_cons.mpr ⟨⟨hname, ?_⟩, ih hparts⟩
    rw [tagOf, if_neg hname]
    exact ⟨t, _, ht, hk, rfl, spans_dropEmptyEnd (spans_upToTag t.text j hparts)⟩
  | case3 j t parts hk ih => exact ih h.2

theorem allNamed_ofParts (hts : Spoken ts) (h : Follow ts i parts) (place : Nat) :
    (ofParts place parts).allNamed = tagsFrom parts := by
  have hnamed : (tagsFrom parts).filter (·.name != "") = tagsFrom parts :=
    List.filter_eq_self.mpr fun t ht => by simpa using (heads_of_tagsFrom hts h t ht).1
  rw [allNamed, ofParts, List.filter_append, hnamed]
  split <;> simp [tagOf]

theorem place_tagsFrom (parts : List Part) :
    (tagsFrom parts).map (·.place) = placesOf .docTag parts := by
  fun_induction tagsFrom parts with
  | case1 => rfl
  | case2 i t parts hk ih => simp [hk, tagOf, ih]
  | case3 i t parts hk ih => simp [hk, ih]

theorem Follow.pieces_begin (h : Follow ts i parts) :
    pieces parts <+: (ts.toList.map Token.piece).drop i := by
  induction parts generalizing i with
  | nil => exact List.nil_prefix
  | cons p parts ih =>
    obtain ⟨⟨-, hp, -⟩, hparts⟩ := h
    obtain ⟨hi, hget⟩ := Array.getElem?_eq_some_iff.mp hp
    rw [List.drop_eq_getElem_cons (by simpa using hi)]
    exact List.cons_prefix_cons.mpr ⟨by simp [hget], ih hparts⟩

end DocComment

namespace Tokens
variable {ts : Tokens} {source : String} {o c start stop i : Nat} {t : Token}

structure IsComment (ts : Tokens) (o c : Nat) : Prop where
  opener : ts.kind? o = some .docOpen
  closer : ts.kind? c = some .docClose
  lt : o < c
  first : ∀ j < c, o < j → ts.kind? j ≠ some .docClose

/-- The opener of a comment that has an end knows it. -/
theorem IsComment.commentEnd (h : (tokenize source).IsComment o c) :
    (tokenize source)[o]?.bind (·.commentEnd) = some c := by
  have hstretch := (tokenize_enclosed source).stretch_of_open h.opener h.lt fun j hj hjc => by
    obtain ⟨k, hk⟩ := exists_kind? (Nat.lt_trans hjc (lt_size_of_kind? h.closer))
    exact ⟨k, hk, fun hclose => h.first j hjc hj (hclose ▸ hk)⟩
  rw [tokenize_opened source o h.opener]
  exact hstretch.commentEnd_eq h.closer (Nat.lt_succ_self o) h.lt

def inside (ts : Tokens) (o c : Nat) (k : Kind) : List Nat :=
  (List.range' (o + 1) (c - (o + 1))).filter fun i => ts.kind? i = some k

theorem placesOf_between (ts : Tokens) (o c : Nat) (k : Kind) :
    DocComment.placesOf k (DocComment.between ts (o + 1) c) = ts.inside o c k := by
  unfold DocComment.between inside
  induction List.range' (o + 1) (c - (o + 1)) with
  | nil => rfl
  | cons i is ih =>
    rw [List.filterMap_cons, List.filter_cons, ← ih, kind?]
    cases ht : ts[i]? with
    | none => simp
    | some t => by_cases hk : t.kind = k <;> simp [hk]

def linesBefore (ts : Tokens) (i : Nat) : Nat :=
  ((ts.toList.take i).map fun t => Text.lineBreaks t.text.toList).sum

theorem linesBefore_succ (h : ts[i]? = some t) :
    ts.linesBefore (i + 1) = ts.linesBefore i + Text.lineBreaks t.text.toList := by
  have hget : ts.toList[i]? = some t := by simpa using h
  simp [linesBefore, List.take_add_one, hget]

end Tokens

theorem Piece.Lined.lineBreaks_joined {ps : List Piece} (h : Lined ps) :
    Text.lineBreaks (joined ps) = (ps.map fun p => Text.lineBreaks p.text).sum := by
  induction ps with
  | nil => rfl
  | cons p ps ih =>
    rw [List.map_cons, List.sum_cons, ← ih h.2]
    exact Text.lineBreaks_append h.1

namespace Tokens
variable {source : String} {o c start stop i : Nat} {t : Token}

/-- A token stands below all line breaks before it. -/
theorem line_eq (h : (tokenize source)[i]? = some t) :
    t.line = 1 + (tokenize source).linesBefore i := by
  rw [(place_eq h).1, source_take_tokenize, ← map_piece_tokenize, ← List.map_take,
    Piece.Lined.lineBreaks_joined (List.map_take ▸ (lined_tokenize source).take i), List.map_map]
  rfl

/-- In the body of a tag lines are as far apart as there are line breaks between them. -/
theorem linesBefore_body (hbody : (tokenize source).IsBody start stop) (hstart : start ≤ i)
    (hstop : i ≤ stop) : (tokenize source).linesBefore i + (tokenize source).breaksBefore start =
      (tokenize source).linesBefore start + (tokenize source).breaksBefore i := by
  induction i, hstart using Nat.le_induction with
  | base => rfl
  | succ i hi ih =>
    obtain ⟨k, hk, hkbody⟩ := hbody i hi (by omega)
    obtain ⟨t, ht, rfl⟩ := Option.map_eq_some_iff.mp hk
    have hbreaks := Piece.isCutProperty_breaksAlone.tokenize (Array.mem_of_getElem? ht) hkbody
    rw [linesBefore_succ ht, breaksBefore_succ ht, hbreaks]
    have := ih (by omega)
    simp only [DocComment.isBreak_iff]
    omega

end Tokens

theorem tokenize_spoken (source : String) : DocComment.Spoken (tokenize source) :=
  fun _ _ ht => Piece.isCutProperty_speaks.tokenize (Array.mem_of_getElem? ht)

theorem tokenize_oneText (source : String) :
    Piece.OneText false ((tokenize source).toList.map Token.piece) := by
  rw [map_piece_tokenize]
  exact Piece.assign_oneText none (Piece.cut_oneText false false _)

/-- No two texts of a comment of a file are on one line. -/
theorem oneText_of_commentEnd {source : String} {o c : Nat}
    (h : (tokenize source)[o]?.bind (·.commentEnd) = some c) :
    Piece.OneText false (DocComment.pieces (DocComment.between (tokenize source) (o + 1) c)) := by
  obtain ⟨rest, hrest⟩ := (follow_of_commentEnd h).pieces_begin
  obtain ⟨t, ht, hk⟩ := Option.map_eq_some_iff.mp (kind?_of_commentEnd h)
  have hafter := (tokenize_oneText source).after (n := o) (p := t.piece) (by simp [ht]) hk
  exact Piece.OneText.left (hrest ▸ hafter)

/-- A tag of a comment of a file. Its text has a line for each of its tokens, which is that of the
token, or empty where there is none; and the tokens stand as far below the name, if the tag has
one, as their lines. -/
structure Tag.Faithful (ts : Tokens) (t : Tag) : Prop where
  length : (Text.pieces '\n' t.text).length = t.tokens.length
  empty : ∀ (n : Nat) (s : String), (Text.pieces '\n' t.text)[n]? = some s →
    t.tokens[n]? = some none → s = ""
  content : ∀ (n i : Nat) (s : String), (Text.pieces '\n' t.text)[n]? = some s →
    t.tokens[n]? = some (some i) → ∃ u, ts[i]? = some u ∧ u.kind = .docText ∧ u.text = s
  below : t.name ≠ "" → ∀ n i : Nat, t.tokens[n]? = some (some i) →
    ∃ u v, ts[i]? = some u ∧ ts[t.place]? = some v ∧ u.line = v.line + n

theorem Tag.StandsIn.pieces_text {ts : Tokens} {t : Tag} (h : t.StandsIn ts) :
    Text.pieces '\n' t.text = t.lines.map (·.text) := by
  have hlines : ∀ s ∈ t.lines.map (·.text), '\n' ∉ s.toList := by
    simpa using fun l hl => (h.lines l hl).text
  exact Text.pieces_glue hlines (by simpa using h.nonempty)

/-- The tokens of a tag stand below its name. -/
theorem DocComment.Heads.below {source : String} {t : Tag} (hts : Spoken (tokenize source))
    (h : Heads (tokenize source) t) {n i : Nat} (hi : t.tokens[n]? = some (some i)) :
    ∃ u v, (tokenize source)[i]? = some u ∧ (tokenize source)[t.place]? = some v ∧
      u.line = v.line + n := by
  obtain ⟨v, stop, hv, hk, -, hspans⟩ := h
  obtain ⟨l, hl, htoken⟩ : ∃ l, t.lines[n]? = some l ∧ l.token = some i := by
    simpa [Tag.tokens] using hi
  obtain ⟨hstart, hstop, hbreaks, u, hu, -⟩ := (hspans.lines n l hl).token i htoken
  refine ⟨u, v, hu, hv, ?_⟩
  have hbody := Tokens.linesBefore_body hspans.body hstart (Nat.le_of_lt hstop)
  have hname : Text.lineBreaks v.text.toList = 0 := (hts _ v hv).name hk
  rw [Tokens.line_eq hu, Tokens.line_eq hv]
  rw [Tokens.linesBefore_succ hv, hname] at hbody
  omega

namespace DocComment
variable {source : String} {o k : Nat} {c : DocComment}

theorem count_tokens (tags : List Tag) (i : Nat) : (tags.flatMap Tag.tokens).count (some i) =
    (tags.flatMap fun t => sources t.lines).count i := by
  have hlines : ∀ lines : List TagLine,
      (lines.map (·.token)).count (some i) = (sources lines).count i := by
    intro lines
    induction lines with
    | nil => rfl
    | cons l ls ih =>
      rw [List.map_cons, List.count_cons, ih, sources_cons, List.count_append, Nat.add_comm]
      cases l.token <;> simp [List.count_singleton]
  induction tags with
  | nil => rfl
  | cons t tags ih =>
    rw [List.flatMap_cons, List.flatMap_cons, List.count_append, List.count_append, ih, Tag.tokens,
      hlines]

theorem nodup_inside (ts : Tokens) (o c : Nat) (k : Kind) : (ts.inside o c k).Nodup :=
  List.Nodup.filter _ List.nodup_range'

theorem faithful_of_read (h : read (tokenize source) o = .ok c) :
    ∀ t ∈ c.tags, (t.name ≠ "" → Heads (tokenize source) t) → t.Faithful (tokenize source) := by
  intro t ht hheads
  have hstands := read_standsIn h t ht
  obtain ⟨start, stop, above, hspans⟩ := read_laidOut h t ht
  have hline : ∀ (n : Nat) (s : String) (token : Option Nat),
      (Text.pieces '\n' t.text)[n]? = some s → t.tokens[n]? = some token →
        ∃ l : TagLine, t.lines[n]? = some l ∧ l.text = s ∧ l.token = token := by
    intro n s token hs htoken
    rw [hstands.pieces_text, List.getElem?_map] at hs
    rw [Tag.tokens, List.getElem?_map] at htoken
    obtain ⟨l, hl, rfl⟩ := Option.map_eq_some_iff.mp hs
    rw [hl] at htoken
    exact ⟨l, hl, rfl, Option.some.inj htoken⟩
  refine ⟨?_, fun n s hs htoken => ?_, fun n i s hs htoken => ?_, fun hname n i hi => ?_⟩
  · rw [hstands.pieces_text, List.length_map, Tag.tokens, List.length_map]
  · obtain ⟨l, hl, rfl, hnone⟩ := hline n s none hs htoken
    exact (hspans.lines n l hl).empty hnone
  · obtain ⟨l, hl, rfl, hsome⟩ := hline n s (some i) hs htoken
    obtain ⟨-, -, -, hu⟩ := (hspans.lines n l hl).token i hsome
    exact hu
  · exact (hheads hname).below (tokenize_spoken source) hi

/-- A comment that has an end is read completely. Its named tags are the tokens of names inside of
it, in order and with their names; every token of text inside of it is that of one line of one tag;
and each tag has its lines as they stand in the file. -/
theorem read_complete (h : (tokenize source).IsComment o k) :
    ∃ c, read (tokenize source) o = .ok c ∧ c.place = o ∧
      c.allNamed.map (·.place) = (tokenize source).inside o k .docTag ∧
      (∀ t ∈ c.allNamed, ∃ u, (tokenize source)[t.place]? = some u ∧ u.text = t.name) ∧
      (∀ i ∈ (tokenize source).inside o k .docText,
        (c.tags.flatMap Tag.tokens).count (some i) = 1) ∧
      ∀ t ∈ c.tags, t.Faithful (tokenize source) := by
  have hts := tokenize_spoken source
  have hend := h.commentEnd
  have hfollow := follow_of_commentEnd hend
  have hread : read (tokenize source) o =
      .ok (ofParts o (between (tokenize source) (o + 1) k)) := by
    rw [read, hend]
  have hnamed := allNamed_ofParts hts hfollow o
  have hheads := heads_of_tagsFrom hts hfollow
  refine ⟨_, hread, rfl, ?_, fun t ht => ?_, fun i hi => ?_, fun t ht => ?_⟩
  · rw [hnamed, place_tagsFrom, Tokens.placesOf_between]
  · obtain ⟨u, -, hu, -, hname, -⟩ := (hheads t (hnamed ▸ ht)).2
    exact ⟨u, hu, hname⟩
  · rw [count_tokens, sources_ofParts hts hfollow (oneText_of_commentEnd hend),
      Tokens.placesOf_between]
    exact List.count_eq_one_of_mem (nodup_inside _ _ _ _) hi
  · refine faithful_of_read hread t ht fun hname => (hheads t ?_).2
    rw [← hnamed]
    exact List.mem_filter.mpr ⟨ht, by simpa using hname⟩

def twoTags : String :=
  "<?php\n/** Sum.\r\n *\r\n * @param int $a\r\n *  the first\r\n *\n * @return int */"

theorem read_complete_twoTags :
    (tokenize twoTags).IsComment 1 30 ∧
      ∃ c, read (tokenize twoTags) 1 = .ok c ∧ c.allNamed.map (·.place) = [11, 26] ∧
        (∀ i ∈ [3, 13, 18, 28], (c.tags.flatMap Tag.tokens).count (some i) = 1) ∧
        ∀ t ∈ c.tags, t.Faithful (tokenize twoTags) := by
  have hcomment : (tokenize twoTags).IsComment 1 30 :=
    ⟨by decide +kernel, by decide +kernel, by decide, by decide +kernel⟩
  have htags : (tokenize twoTags).inside 1 30 .docTag = [11, 26] := by decide +kernel
  have htexts : (tokenize twoTags).inside 1 30 .docText = [3, 13, 18, 28] := by decide +kernel
  obtain ⟨c, hread, -, hnamed, -, htold, hlines⟩ := read_complete hcomment
  exact ⟨hcomment, c, hread, hnamed.trans htags, htexts ▸ htold, hlines⟩

end DocComment
end PhpDoc
