import PhpDoc.Proofs.TagLines
import Mathlib.Data.List.DropRight
/-!
The lines of documentation comments. A text goes on to the end of its line, but for blanks, so that
no line has two of them.
-/
namespace PhpDoc

namespace Piece

def LineEnds (cs : List Char) : Prop :=
  cs.dropWhile isDocBlank = [] ∨ 0 < Text.breakWidth (cs.dropWhile isDocBlank) ∨
    ['*', '/'] <+: cs.dropWhile isDocBlank

theorem LineEnds.blank {c : Char} {cs : List Char} (h : LineEnds (c :: cs))
    (hc : isDocBlank c = true) : LineEnds (cs.drop (Text.run isDocBlank cs)) := by
  rw [LineEnds, Text.run, Text.drop_length_takeWhile, List.dropWhile_idempotent]
  rwa [LineEnds, List.dropWhile_cons_of_pos hc] at h

theorem stop_beforeEnd (accepts : Char → Bool) (cs : List Char) :
    cs.drop (beforeEnd accepts cs) = [] ∨ ['*', '/'] <+: cs.drop (beforeEnd accepts cs) ∨
      ∃ c rest, cs.drop (beforeEnd accepts cs) = c :: rest ∧ accepts c = false := by
  fun_induction beforeEnd accepts cs with
  | case1 rest => exact .inr (.inl ⟨rest, rfl⟩)
  | case2 c cs _ _ ih => exact ih
  | case3 c cs _ hc => exact .inr (.inr ⟨c, cs, rfl, by simpa using hc⟩)
  | case4 => exact .inl rfl

theorem lineEnds_of_begin {cs : List Char}
    (h : cs = [] ∨ 0 < Text.breakWidth cs ∨ ['*', '/'] <+: cs) :
    LineEnds cs := by
  have hfirst : cs.dropWhile isDocBlank = cs := by
    rcases h with rfl | hbreak | ⟨rest, rfl⟩
    · rfl
    · cases cs with
      | nil => rfl
      | cons c cs =>
        refine List.dropWhile_cons_of_neg ?_
        rcases Text.breakWidth_pos.mp hbreak with rfl | rfl <;> decide
    · exact List.dropWhile_cons_of_neg (by decide)
  rwa [LineEnds, hfirst]

theorem LineEnds.after_blanks {blanks cs : List Char} (h : LineEnds cs)
    (hblanks : ∀ d ∈ blanks, isDocBlank d = true) : LineEnds (blanks ++ cs) := by
  rwa [LineEnds, List.dropWhile_append_of_pos hblanks]

theorem exists_stripped (p : Char → Bool) (cs : List Char) : ∃ kept blanks, cs = kept ++ blanks ∧
    (cs.reverse.dropWhile p).length = kept.length ∧ ∀ d ∈ blanks, p d = true := by
  refine ⟨(cs.reverse.dropWhile p).reverse, (cs.reverse.takeWhile p).reverse, ?_, by simp, ?_⟩
  · rw [← List.reverse_append, List.takeWhile_append_dropWhile, List.reverse_reverse]
  · exact fun d hd => List.all_eq_true.mp List.all_takeWhile d (List.mem_reverse.mp hd)

/-- Text goes on to the end of its line, but for blanks. -/
theorem lineEnds_docText (cs : List Char) : LineEnds (cs.drop
    ((cs.take (beforeEnd (fun d => d != '\r' && d != '\n') cs)).reverse.dropWhile
      isDocBlank).length) := by
  have hrest : LineEnds (cs.drop (beforeEnd (fun d => d != '\r' && d != '\n') cs)) := by
    refine lineEnds_of_begin ((stop_beforeEnd _ cs).imp_right fun h => h.symm.imp_left ?_)
    rintro ⟨c, rest, hdrop, hc⟩
    rw [hdrop]
    exact Text.breakWidth_pos.mpr (by simpa [or_iff_not_imp_left] using hc)
  revert hrest
  generalize beforeEnd (fun d => d != '\r' && d != '\n') cs = n
  intro hrest
  obtain ⟨kept, blanks, hline, hlength, hblanks⟩ := exists_stripped isDocBlank (cs.take n)
  have hcs : cs.drop kept.length = blanks ++ cs.drop n := by
    conv_lhs => rw [← List.take_append_drop n cs, hline, List.append_assoc, List.drop_left]
  rw [hlength, hcs]
  exact hrest.after_blanks hblanks

def isBreak (p : Piece) : Bool :=
  p.kind == .docBlank && [['\n'], ['\r', '\n'], ['\r']].contains p.text

theorem isBreak_iff {p : Piece} : p.isBreak = true ↔
    p.kind = .docBlank ∧ p.text ∈ [['\n'], ['\r', '\n'], ['\r']] := by
  rw [isBreak, Bool.and_eq_true, beq_iff_eq, List.contains_iff_mem]

def fills (full : Bool) (p : Piece) : Bool :=
  p.kind == .docText || (full && (p.kind == .docStar || p.kind == .docBlank && !p.isBreak))

def OneText : Bool → List Piece → Prop
  | _, [] => True
  | full, p :: ps => (full = true → p.kind ≠ .docText) ∧ OneText (p.fills full) ps

theorem OneText.append {full : Bool} {ps qs : List Piece} (hp : OneText full ps)
    (hq : ∀ full, OneText full qs) : OneText full (ps ++ qs) := by
  induction ps generalizing full with
  | nil => exact hq full
  | cons p ps ih => exact ⟨hp.1, ih hp.2⟩

theorem OneText.left {full : Bool} {ps qs : List Piece} (h : OneText full (ps ++ qs)) :
    OneText full ps := by
  induction ps generalizing full with
  | nil => trivial
  | cons p ps ih => exact ⟨h.1, ih h.2⟩

/-- What stands outside of a tag's body begins new lines. -/
theorem fills_eq_false {p : Piece} (full : Bool) (h : p.kind.isDoc = false ∨ p.kind = .docOpen ∨
    p.kind = .docTag ∨ p.kind = .docClose) : p.fills full = false ∧ p.kind ≠ .docText := by
  obtain ⟨kind, text⟩ := p
  cases kind <;> simp_all [fills, Kind.isDoc]

theorem OneText.cons {full : Bool} {p : Piece} {ps : List Piece} (h : p.kind.isDoc = false ∨
    p.kind = .docOpen ∨ p.kind = .docTag ∨ p.kind = .docClose) (hps : OneText false ps) :
    OneText full (p :: ps) :=
  ⟨fun _ => (fills_eq_false full h).2, (fills_eq_false full h).1 ▸ hps⟩

theorem OneText.after {full : Bool} {ps : List Piece} {n : Nat} {p : Piece} (h : OneText full ps)
    (hp : ps[n]? = some p) (hkind : p.kind = .docOpen) : OneText false (ps.drop (n + 1)) := by
  induction ps generalizing full n with
  | nil => cases hp
  | cons q ps ih =>
    cases n with
    | zero =>
      cases hp
      exact (fills_eq_false full (.inr (.inl hkind))).1 ▸ h.2
    | succ n => exact ih h.2 hp

section
variable {atStart : Bool} {c : Char} {cs : List Char} {kind : Kind} {n : Nat}

/-- On a line that has its text nothing but blanks is cut off before the line or the comment
ends. -/
theorem docTail_lineEnds (h : docTail atStart c cs = (kind, n)) (hline : LineEnds (c :: cs)) :
    kind = .docClose ∨ kind = .docBlank := by
  rw [docTail] at h
  split at h
  · exact .inl (Prod.mk.inj h).1.symm
  · rename_i hclose
    split at h
    · exact .inr (Prod.mk.inj h).1.symm
    · rename_i hbreak
      split at h
      · exact .inr (Prod.mk.inj h).1.symm
      · -- the line would have to end here
        rename_i hblank
        rw [LineEnds, List.dropWhile_cons_of_neg (by simpa using hblank)] at hline
        rcases hline with hnil | hwidth | ⟨rest, hend⟩
        · cases hnil
        · exact absurd hwidth hbreak
        · obtain ⟨rfl, rfl⟩ := List.cons.inj hend
          exact absurd ⟨rfl, rfl⟩ hclose

theorem docParts_oneText (atStart full : Bool) {cs : List Char}
    (h : full = true → LineEnds cs) : OneText full (docParts atStart cs) := by
  fun_induction docParts atStart cs generalizing full with
  | case1 => trivial
  | case2 atStart c cs kind n hd next ih =>
    have hrest : ∀ {full : Bool}, (full = true → LineEnds (cs.drop n)) →
        OneText full (if kind = .docClose then [] else docParts next (cs.drop n)) := by
      intro full hfull
      split
      · trivial
      · exact ih full hfull
    refine ⟨fun hfull hk => ?_, hrest fun hfills => ?_⟩
    · rcases docTail_lineEnds hd (h hfull) with rfl | rfl <;> cases hk
    · cases docTail_cut hd with
      | close | tag => simp [fills] at hfills
      | lineBreak hbreak =>
        rw [fills, isBreak_iff.mpr ⟨rfl, take_breakWidth hbreak⟩] at hfills
        simp at hfills
      | blank hbreak hblank =>
        obtain ⟨hfull, -⟩ : full = true ∧ _ := by simpa [fills] using hfills
        exact (h hfull).blank hblank
      | star hstart hc =>
        obtain rfl : full = true := by simpa [fills] using hfills
        rcases docTail_lineEnds hd (h rfl) with hk | hk <;> cases hk
      | text hbreak => exact lineEnds_docText cs

theorem ofShape_oneText {shape : Shape} (h : shapeTail c cs = (shape, n)) (full : Bool)
    (text : List Char) : OneText full (ofShape shape text) := by
  cases shape with
  | plain kind => exact .cons (.inl (shapeTail_isDoc h)) trivial
  | name => exact .cons (.inl (nameKind_isDoc text)) trivial
  | sign => exact .cons (.inl (ofSign_isDoc _)) trivial
  | docComment => exact .cons (.inr (.inl rfl)) (docParts_oneText false false nofun)

end

theorem cut_oneText (php full : Bool) (cs : List Char) : OneText full (cut php cs) := by
  fun_induction cut php cs generalizing full with
  | case1 => trivial
  | case2 c cs shape n h ih => exact (ofShape_oneText h full _).append ih
  | case3 | case4 =>
    rename_i ih
    exact .cons (.inl rfl) (ih false)

theorem assign_oneText {full : Bool} {ps : List Piece} (before : Option Kind)
    (h : OneText full ps) : OneText full (assign before ps) := by
  induction ps generalizing full before with
  | nil => trivial
  | cons p ps ih =>
    rw [assign]
    split
    · exact ⟨h.1, ih before h.2⟩
    · rename_i htrivia
      have hp := isDoc_of_not_isTrivia htrivia
      have hrest := h.2
      rw [(fills_eq_false full (.inl hp)).1] at hrest
      exact .cons (.inl (role_isDoc hp)) (ih _ hrest)

structure Speaks (p : Piece) : Prop where
  nonempty : p.kind = .docText ∨ p.kind = .docTag → p.text ≠ []
  name : p.kind = .docTag → Text.lineBreaks p.text = 0

theorem isCutProperty_speaks : IsCutProperty Speaks where
  outside kind text hdoc := by
    constructor
    · rintro (rfl | rfl) <;> cases hdoc
    · rintro rfl
      cases hdoc
  opener text := ⟨by simp, by simp⟩
  part atStart c cs kind n hd := by
    refine ⟨fun _ => List.cons_ne_nil c _, ?_⟩
    rintro rfl
    cases docTail_cut hd with
    | tag hc =>
      refine Text.lineBreaks_eq_zero.mpr (List.forall_mem_cons.mpr ⟨by simp [hc], fun d hd => ?_⟩)
      have haccepts := accepts_of_mem_beforeEnd hd
      constructor <;> rintro rfl <;> cases haccepts

end Piece

end PhpDoc
