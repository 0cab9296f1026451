import PhpDoc.Bindings
import PhpDoc.DocComment
import PhpDoc.Proofs.Pieces
/-!
The comments of a file. The text of a documentation comment keeps to its line, so that a tag has as
many lines as its text, and each of them comes from a token of the file.
-/
namespace PhpDoc

theorem Text.breakWidth_pos {c : Char} {cs : List Char} :
    0 < breakWidth (c :: cs) ↔ c = '\r' ∨ c = '\n' := by
  unfold breakWidth
  split
  case h_4 hcrlf hcr hlf =>
    refine iff_of_false (Nat.lt_irrefl 0) ?_
    rintro (rfl | rfl)
    · exact hcr cs rfl
    · exact hlf cs rfl
  all_goals
    rename_i heq
    obtain ⟨rfl, -⟩ := List.cons.inj heq
    simp

namespace Piece

def KeepsLine (p : Piece) : Prop :=
  p.kind = .docText → '\n' ∉ p.text

structure IsCutProperty (P : Piece → Prop) : Prop where
  outside : ∀ kind text, kind.isDoc = false → P ⟨kind, text⟩
  opener : ∀ text, P ⟨.docOpen, text⟩
  part : ∀ atStart c cs kind n, docTail atStart c cs = (kind, n) → P ⟨kind, c :: cs.take n⟩

theorem accepts_of_mem_beforeEnd {accepts : Char → Bool} {cs : List Char} {d : Char}
    (h : d ∈ cs.take (beforeEnd accepts cs)) : accepts d = true := by
  fun_induction beforeEnd accepts cs with
  | case1 | case3 | case4 => cases h
  | case2 c cs hend haccepts ih =>
    rw [List.take_succ_cons, List.mem_cons] at h
    rcases h with rfl | h
    · exact haccepts
    · exact ih h

theorem docTail_docText {atStart : Bool} {c : Char} {cs : List Char} {n : Nat}
    (h : docTail atStart c cs = (.docText, n)) :
    ∀ d ∈ c :: cs.take n, d ≠ '\r' ∧ d ≠ '\n' := by
  cases docTail_cut h with
  | text hbreak =>
    refine List.forall_mem_cons.mpr ⟨⟨?_, ?_⟩, fun d hd => ?_⟩
    · rintro rfl
      exact Nat.ne_of_gt (Text.breakWidth_pos.mpr (.inl rfl)) hbreak
    · rintro rfl
      exact Nat.ne_of_gt (Text.breakWidth_pos.mpr (.inr rfl)) hbreak
    · have hline := List.take_subset_take_left cs (length_docText_le cs) hd
      simpa using accepts_of_mem_beforeEnd hline

theorem isCutProperty_keepsLine : IsCutProperty KeepsLine where
  outside kind text hdoc := by
    rintro rfl
    cases hdoc
  opener text hk := by cases hk
  part atStart c cs kind n hd := by
    rintro rfl hmem
    exact (docTail_docText hd _ hmem).2 rfl

theorem numberTail_kind (c : Char) (cs : List Char) :
    (numberTail c cs).1 = .decimal ∨ (numberTail c cs).1 = .integer := by
  unfold numberTail
  grind

def plainKinds : List Kind :=
  [.closeTag, .whitespace, .comment, .variable, .heredoc, .quotedText, .decimal, .integer]

theorem shapeTail_kind {c : Char} {cs : List Char} {kind : Kind} {n : Nat}
    (h : shapeTail c cs = (.plain kind, n)) : kind ∈ plainKinds := by
  cases shapeTail_cut h with
  | number => rcases numberTail_kind c cs with hk | hk <;> simp [hk, plainKinds]
  | _ => decide

theorem shapeTail_isDoc {c : Char} {cs : List Char} {kind : Kind} {n : Nat}
    (h : shapeTail c cs = (.plain kind, n)) : kind.isDoc = false := by
  have hall : ∀ k ∈ plainKinds, k.isDoc = false := by decide
  exact hall kind (shapeTail_kind h)

theorem ofSign_isDoc (text : String) : (Kind.ofSign text).isDoc = false := by
  have hsigns : ∀ k ∈ Kind.signs.map (·.2), k.isDoc = false := by decide
  unfold Kind.ofSign
  cases h : Kind.signs.lookup text with
  | none => rfl
  | some kind => exact hsigns kind (List.mem_map_of_mem (mem_of_lookup h))

theorem nameKind_isDoc (text : List Char) : (nameKind text).isDoc = false := by
  have hkeywords : ∀ k ∈ Kind.keywords.map (·.2), k.isDoc = false := by decide
  unfold nameKind
  simp only
  split
  · rfl
  · split
    · rfl
    · split
      · rfl
      · split
        · rename_i kind h
          exact hkeywords kind (List.mem_map_of_mem (mem_of_lookup h))
        · split <;> rfl

theorem role_isDoc {before : Option Kind} {p : Piece} {after : List Piece}
    (h : p.kind.isDoc = false) : (role before p after).isDoc = false := by
  unfold role
  split
  · split
    · rfl
    · exact h
  · split
    · split <;> rfl
    · split
      · rfl
      · split
        · rfl
        · exact h

theorem isDoc_of_not_isTrivia {kind : Kind} (h : ¬kind.isTrivia = true) : kind.isDoc = false := by
  revert h
  cases kind <;> decide

namespace IsCutProperty
variable {P : Piece → Prop}

theorem docParts (h : IsCutProperty P) (atStart : Bool) (cs : List Char) :
    ∀ p ∈ docParts atStart cs, P p := by
  fun_induction Piece.docParts atStart cs with
  | case1 => simp
  | case2 atStart c cs kind n hd next ih =>
    refine List.forall_mem_cons.mpr ⟨h.part _ _ _ _ _ hd, ?_⟩
    split
    · simp
    · exact ih

theorem ofShape (h : IsCutProperty P) {c : Char} {cs : List Char} {shape : Shape} {n : Nat}
    (hshape : shapeTail c cs = (shape, n)) (text : List Char) : ∀ p ∈ ofShape shape text, P p := by
  cases shape with
  | plain kind => simpa [Piece.ofShape] using h.outside _ _ (shapeTail_isDoc hshape)
  | name => simpa [Piece.ofShape] using h.outside _ _ (nameKind_isDoc text)
  | sign => simpa [Piece.ofShape] using h.outside _ _ (ofSign_isDoc _)
  | docComment => exact List.forall_mem_cons.mpr ⟨h.opener _, h.docParts false _⟩

theorem cut (h : IsCutProperty P) (php : Bool) (cs : List Char) : ∀ p ∈ cut php cs, P p := by
  fun_induction Piece.cut php cs with
  | case1 => simp
  | case2 c cs shape n hshape ih =>
    exact List.forall_mem_append.mpr ⟨h.ofShape hshape _, ih⟩
  | case3 | case4 => exact List.forall_mem_cons.mpr ⟨h.outside _ _ rfl, ‹_›⟩

theorem assign (h : IsCutProperty P) {before : Option Kind} {ps : List Piece}
    (hps : ∀ p ∈ ps, P p) : ∀ p ∈ assign before ps, P p := by
  fun_induction Piece.assign before ps with
  | case1 => simp
  | case2 before p ps htrivia ih =>
    obtain ⟨hp, hps⟩ := List.forall_mem_cons.mp hps
    exact List.forall_mem_cons.mpr ⟨hp, ih hps⟩
  | case3 before p ps htrivia kind ih =>
    exact List.forall_mem_cons.mpr
      ⟨h.outside _ _ (role_isDoc (isDoc_of_not_isTrivia htrivia)),
        ih (List.forall_mem_cons.mp hps).2⟩

end IsCutProperty

theorem toTokens_pieces (p : Place) (ps : List Piece) :
    (toTokens p ps).map (fun t => (t.kind, t.text)) =
      ps.map fun x => (x.kind, String.ofList x.text) := by
  fun_induction toTokens p ps <;> simp [*]

end Piece

/-- The tokens have the kinds and texts of the pieces in their roles. -/
theorem tokenize_pieces (source : String) :
    (tokenize source).toList.map (fun t => (t.kind, t.text)) =
      (Piece.assign none (Piece.cut false source.toList)).map
        fun p => (p.kind, String.ofList p.text) := by
  have hextents : ∀ ts : Tokens, ts.withExtents.toList.map (fun t => (t.kind, t.text)) =
      ts.toList.map fun t => (t.kind, t.text) := by
    refine fun ts => Tokens.map_mapIdx ts _ _ fun i t => ?_
    split
    · rfl
    · obtain ⟨_, _, h⟩ := Tokens.declare_eq ts i t
      rw [h]
  rw [tokenize, hextents, Tokens.withGroups, Tokens.map_mapIdx, Piece.toTokens_pieces]
  exact fun _ _ => rfl

/-- Every token is a piece in its role. -/
theorem piece_of_mem_tokenize {source : String} {t : Token} (ht : t ∈ tokenize source) :
    ⟨t.kind, t.text.toList⟩ ∈ Piece.assign none (Piece.cut false source.toList) := by
  have hmem := List.mem_map_of_mem (f := fun t => (t.kind, t.text)) (Array.mem_toList_iff.mpr ht)
  rw [tokenize_pieces] at hmem
  obtain ⟨p, hp, heq⟩ := List.mem_map.mp hmem
  obtain ⟨hkind, htext⟩ := Prod.mk.inj heq
  rw [← hkind, ← htext]
  simpa using hp

/-- What every piece has, every token has. -/
theorem Piece.IsCutProperty.tokenize {P : Piece → Prop} (h : IsCutProperty P) {source : String}
    {t : Token} (ht : t ∈ tokenize source) : P ⟨t.kind, t.text.toList⟩ :=
  h.assign (h.cut false source.toList) _ (piece_of_mem_tokenize ht)

/-- The text of a documentation comment keeps to its line. -/
theorem docText_keepsLine {source : String} {t : Token} (ht : t ∈ tokenize source)
    (hk : t.kind = .docText) : '\n' ∉ t.text.toList :=
  Piece.isCutProperty_keepsLine.tokenize ht hk

structure TagLine.StandsIn (ts : Tokens) (l : TagLine) : Prop where
  text : '\n' ∉ l.text.toList
  token : ∀ i, l.token = some i → i < ts.size

structure Tag.StandsIn (ts : Tokens) (t : Tag) : Prop where
  nonempty : t.lines ≠ []
  lines : ∀ l ∈ t.lines, l.StandsIn ts

namespace DocComment
variable {ts : Tokens}

def PartsOf (ts : Tokens) (parts : List Part) : Prop :=
  ∀ p ∈ parts, p.1 < ts.size ∧ (p.2.kind = .docText → '\n' ∉ p.2.text.toList)

theorem linesFrom_standsIn {line : Option TagLine} {parts : List Part}
    (hparts : PartsOf ts parts) (hline : ∀ l ∈ line, l.StandsIn ts) :
    ∀ l ∈ linesFrom line parts, l.StandsIn ts := by
  have hempty : TagLine.StandsIn ts {} := ⟨by simp, (by simp)⟩
  fun_induction linesFrom line parts with
  | case1 line => simpa using hline
  | case2 line i t parts hk ih =>
    obtain ⟨⟨hi, ht⟩, hrest⟩ := List.forall_mem_cons.mp hparts
    exact ih hrest (by simpa using ⟨ht hk, by simpa using hi⟩)
  | case3 line i t parts hk hbreak ih =>
    refine List.forall_mem_cons.mpr ⟨?_, ih (List.forall_mem_cons.mp hparts).2 (by simp)⟩
    cases line with
    | none => exact hempty
    | some l => exact hline l rfl
  | case4 line i t parts hk hbreak ih => exact ih (List.forall_mem_cons.mp hparts).2 hline

theorem linesFrom_ne_nil (l : TagLine) (parts : List Part) : linesFrom (some l) parts ≠ [] := by
  induction parts generalizing l with
  | nil => simp [linesFrom]
  | cons p parts ih =>
    rw [linesFrom]
    split
    · exact ih _
    · split
      · exact List.cons_ne_nil _ _
      · exact ih l

theorem isPrefix_dropEmptyEnd (ls : List TagLine) : dropEmptyEnd ls <+: ls := by
  fun_induction dropEmptyEnd ls with
  | case1 => exact List.prefix_rfl
  | case2 l ls m hdrop hm ih => simp
  | case3 l ls m hdrop hm ih =>
    rw [hdrop] at ih
    exact List.cons_prefix_cons.mpr ⟨rfl, ih⟩
  | case4 l ls ih => exact List.cons_prefix_cons.mpr ⟨rfl, ‹_›⟩

theorem dropEmptyEnd_ne_nil {ls : List TagLine} (h : ls ≠ []) : dropEmptyEnd ls ≠ [] := by
  fun_induction dropEmptyEnd ls <;> simp_all

theorem isSuffix_dropEmptyStart (ls : List TagLine) : dropEmptyStart ls <:+ ls := by
  fun_induction dropEmptyStart ls with
  | case1 | case2 | case4 => exact List.suffix_rfl
  | case3 l ls _ _ ih => exact ih.trans (List.suffix_cons l ls)

theorem dropEmptyStart_ne_nil {ls : List TagLine} (h : ls ≠ []) : dropEmptyStart ls ≠ [] := by
  fun_induction dropEmptyStart ls <;> simp_all

theorem tagOf_standsIn (name : String) (place : Nat) {parts : List Part} (h : PartsOf ts parts) :
    (tagOf name place parts).StandsIn ts := by
  have hup : PartsOf ts (upToTag parts) := fun p hp => h p (List.takeWhile_subset _ hp)
  have hempty : ∀ l ∈ some ({} : TagLine), l.StandsIn ts := by
    rintro l ⟨⟩
    exact ⟨by simp, (by simp)⟩
  have hlines := linesFrom_standsIn hup hempty
  have hend := (isPrefix_dropEmptyEnd (linesFrom (some {}) (upToTag parts))).subset
  have hne := dropEmptyEnd_ne_nil (linesFrom_ne_nil {} (upToTag parts))
  constructor
  · rw [tagOf]
    split
    · exact dropEmptyStart_ne_nil hne
    · exact hne
  · intro l hl
    rw [tagOf] at hl
    refine hlines l (hend ?_)
    split at hl
    · exact (isSuffix_dropEmptyStart _).subset hl
    · exact hl

theorem tagsFrom_standsIn {parts : List Part} (h : PartsOf ts parts) :
    ∀ t ∈ tagsFrom parts, t.StandsIn ts := by
  fun_induction tagsFrom parts with
  | case1 => simp
  | case2 i t parts hk ih =>
    have hrest := (List.forall_mem_cons.mp h).2
    exact List.forall_mem_cons.mpr ⟨tagOf_standsIn t.text i hrest, ih hrest⟩
  | case3 i t parts hk ih => exact ih (List.forall_mem_cons.mp h).2

theorem ofParts_standsIn (place : Nat) {parts : List Part} (h : PartsOf ts parts) :
    ∀ t ∈ (ofParts place parts).tags, t.StandsIn ts := by
  refine List.forall_mem_append.mpr ⟨?_, tagsFrom_standsIn h⟩
  split
  · simpa using tagOf_standsIn "" place h
  · simp

end DocComment

/-- The tags of a comment of a file stand in it. -/
theorem DocComment.read_standsIn {source : String} {opener : Nat} {c : DocComment}
    (h : read (tokenize source) opener = .ok c) : ∀ t ∈ c.tags, t.StandsIn (tokenize source) := by
  unfold read at h
  split at h
  · cases h
    refine ofParts_standsIn opener fun p hp => ?_
    obtain ⟨i, -, hi⟩ := List.mem_filterMap.mp hp
    obtain ⟨t, ht, rfl⟩ := Option.map_eq_some_iff.mp hi
    obtain ⟨hlt, rfl⟩ := Array.getElem?_eq_some_iff.mp ht
    exact ⟨hlt, docText_keepsLine (Array.getElem_mem hlt)⟩
  · cases h

/-- A text of several lines has as many line feeds as there are between them. -/
theorem count_intercalate {lines : List (List Char)} (h : ∀ l ∈ lines, '\n' ∉ l)
    (hne : lines ≠ []) : (['\n'].intercalate lines).count '\n' + 1 = lines.length := by
  induction lines with
  | nil => exact absurd rfl hne
  | cons l rest ih =>
    obtain ⟨hl, hrest⟩ := List.forall_mem_cons.mp h
    cases rest with
    | nil => simp [List.intercalate_singleton, List.count_eq_zero.mpr hl]
    | cons m rest =>
      have hcount := ih hrest (List.cons_ne_nil m rest)
      rw [List.intercalate_cons_cons, List.count_append, List.count_append,
        List.count_eq_zero.mpr hl]
      simp_all
      omega

theorem Tag.StandsIn.count_text {ts : Tokens} {t : Tag} (h : t.StandsIn ts) :
    t.text.toList.count '\n' + 1 = t.lines.length := by
  have hlines : ∀ l ∈ t.lines.map (·.text.toList), '\n' ∉ l := by
    simpa using fun l hl => (h.lines l hl).text
  have hcount := count_intercalate hlines (by simpa using h.nonempty)
  simpa [Tag.text, String.toList_intercalate, Function.comp_def] using hcount

end PhpDoc
