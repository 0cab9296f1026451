import PhpDoc.Proofs.Writing
/-!
Types that are written as one line. The blanks between the lexemes of a type are written on one line,
and of the lexemes only quoted ones can hold a line break.
-/
namespace PhpDoc

def Text.IsOneLine (s : List Char) : Prop :=
  ∀ c ∈ s, c ≠ '\r' ∧ c ≠ '\n'

instance (s : List Char) : Decidable (Text.IsOneLine s) :=
  inferInstanceAs (Decidable (∀ c ∈ s, c ≠ '\r' ∧ c ≠ '\n'))

theorem Text.isOneLine_append {xs ys : List Char} :
    IsOneLine (xs ++ ys) ↔ IsOneLine xs ∧ IsOneLine ys :=
  List.forall_mem_append

theorem Text.isOneLine_of_isWhiteSpace {s : List Char} (h : ∀ c ∈ s, isWhiteSpace c = false) :
    IsOneLine s := by
  intro c hc
  constructor
  · rintro rfl
    cases h _ hc
  · rintro rfl
    cases h _ hc

namespace Lexing
open Text (IsOneLine isOneLine_append)

variable {c : Char} {cs ds rest tail gap text : List Char} {k : LexemeKind} {n m : Nat} {sp sp' : Bool}
  {ls : List Lexeme}

/-- The blanks between two lexemes are written on one line. -/
theorem isOneLine_collapse (gap : List Char) : IsOneLine (collapse gap) := by
  unfold collapse
  split
  · decide
  · next hno =>
    intro c hc
    have hne : ¬(c = '\n' ∨ c = '\r') := fun h => hno (List.any_eq_true.mpr ⟨c, hc, by simpa using h⟩)
    exact ⟨fun h => hne (.inr h), fun h => hne (.inl h)⟩

theorem isOneLine_respell (words : List Nat) (l : Lexeme) :
    IsOneLine (TypedTag.respell words l).toList ↔ IsOneLine l.text.toList := by
  have hwords : ∀ r ∈ Words.recommended, IsOneLine r.1.toList ∧ IsOneLine r.2.toList := by decide
  obtain he | hm := TypedTag.respell_cases words l
  · rw [he]
  · exact iff_of_true (hwords _ hm).2 (hwords _ hm).1

/-- No lexeme but a quoted one holds a line break. -/
theorem isOneLine_lexeme (hc : Text.isWhiteSpace c = false)
    (ht : lexemeTail c (tail ++ rest) = some (k, tail.length)) (hk : k ≠ .quoted) :
    IsOneLine (c :: tail) := by
  obtain ⟨hquoted, -⟩ | hall := lexeme_cases hc ht
  · exact absurd hquoted hk
  · rw [List.take_left] at hall
    exact Text.isOneLine_of_isWhiteSpace hall

/-- Lexemes are spelled as one line exactly if the quoted ones among them are. -/
theorem Lexed.isOneLine_spellAfter (words : List Nat) (h : Lexed n sp cs ls m sp' ds)
    (ht : text.drop n = cs) : IsOneLine (TypedTag.spellAfter text words n ls) ↔
      ∀ l ∈ ls, l.kind = .quoted → IsOneLine l.text.toList := by
  induction h with
  | nil => simp [TypedTag.spellAfter, IsOneLine]
  | @cons n m sp sp' gap tail rest ds c k ls hgap hc hk hl ih =>
    have hlexeme : IsOneLine (c :: tail) ↔ (k = .quoted → IsOneLine (c :: tail)) :=
      ⟨fun h _ => h, fun h => by_contra fun hno => hno (isOneLine_lexeme hc hk (mt h hno))⟩
    rw [TypedTag.spellAfter, gap_eq_collapse ht, stop_eq, isOneLine_append, isOneLine_append,
      isOneLine_respell, String.toList_ofList, ih (drop_of_cons ht), List.forall_mem_cons,
      String.toList_ofList, ← hlexeme]
    exact and_congr_left fun _ => and_iff_right (isOneLine_collapse gap)

theorem Lexed.isOneLine_spell {first : Lexeme} (words : List Nat)
    (h : Lexed n sp cs (first :: ls) m sp' ds) (ht : text.drop n = cs) :
    IsOneLine (TypedTag.spell text words (first :: ls)).toList ↔
      ∀ l ∈ first :: ls, l.kind = .quoted → IsOneLine l.text.toList := by
  rw [← h.isOneLine_spellAfter words ht, toList_spell, TypedTag.spellAfter, List.append_assoc]
  cases h with
  | cons =>
    rw [gap_eq_collapse ht]
    exact (isOneLine_append.trans (and_iff_right (isOneLine_collapse _))).symm

end Lexing

namespace TypedTag
open Lexing Text

variable {c : Context} {text spelled : String} {f : Form} {span : Nat × Nat}

/-- The quoted lexemes that begin in a stretch of a text keep to their line. -/
def QuotesKeepLine (text : String) (span : Nat × Nat) : Prop :=
  ∀ l ∈ (lex text).lexemes, span.1 ≤ l.start → l.start < span.2 → l.kind = .quoted →
    IsOneLine l.text.toList

instance (text : String) (span : Nat × Nat) : Decidable (QuotesKeepLine text span) :=
  inferInstanceAs (Decidable (∀ l ∈ (lex text).lexemes, _))

/-- The lexemes of a type are those that begin in its place. -/
theorem Form.mem_lexemes_iff {n m : Nat} {sp sp' : Bool} {cs ds : List Char} {first l : Lexeme}
    {others skipped : List Lexeme} (hl : Lexed n sp cs (first :: others) m sp' ds)
    (hsplit : (lex text).lexemes = skipped ++ (first :: others ++ (lexFrom m sp' ds).lexemes)) :
    l ∈ first :: others ↔ l ∈ (lex text).lexemes ∧ first.start ≤ l.start ∧ l.start < m := by
  have hpairs := pairwise_start 0 false text.toList
  rw [← lex, hsplit, List.pairwise_append, List.pairwise_append, List.pairwise_cons] at hpairs
  obtain ⟨-, ⟨⟨hfirst, -⟩, -, -⟩, hskipped⟩ := hpairs
  rw [hsplit, List.mem_append, List.mem_append]
  constructor
  · intro hmem
    refine ⟨.inr (.inl hmem), ?_, hl.stop_le l hmem⟩
    obtain rfl | hrest := List.mem_cons.mp hmem
    · exact Nat.le_refl _
    · exact Nat.le_of_lt (hfirst l hrest)
  · rintro ⟨hbefore | hmem | hafter, hstart, hstop⟩
    · have hlt := hskipped l hbefore first (by simp)
      omega
    · exact hmem
    · have hle := le_start_of_mem hafter
      omega

/-- A type is spelled as one line exactly if the quoted lexemes in its place keep to their line. -/
theorem Form.exists_span (hspelled : (f.read c text).spelled = some spelled) : ∃ span,
    (f.read c text).span = some span ∧ (IsOneLine spelled.toList ↔ QuotesKeepLine text span) := by
  obtain ⟨n, sp, reading, after, hread, rfl, hspan, skipped, hskipped⟩ := exists_reading hspelled
  obtain ⟨first, others, m, sp', ds, hl, hspell, hplace, -, hsplit, hahead, -⟩ :=
    exists_lexed_of_readType hread
  have hlexemes : (lex text).lexemes =
      skipped ++ (first :: others ++ (lexFrom m sp' ds).lexemes) := by
    rw [← hskipped, hsplit, hahead]
  refine ⟨reading.span, hspan, ?_⟩
  rw [hspell, hl.isOneLine_spell _ rfl, QuotesKeepLine, hplace]
  simp only [mem_lexemes_iff hl hlexemes, and_imp]

end TypedTag

namespace Tag
variable {ts : Tokens} {t : Tag}

/-- The lines of a tag hold no line breaks. -/
theorem LaidOut.isOneLine {source : String} (h : t.LaidOut (tokenize source)) {l : TagLine}
    (hl : l ∈ t.lines) : Text.IsOneLine l.text.toList := by
  obtain ⟨start, stop, above, -, hlines⟩ := h
  obtain ⟨n, hn⟩ := List.mem_iff_getElem?.mp hl
  have hline := hlines n l hn
  cases htoken : l.token with
  | none => simp [hline.empty htoken, Text.IsOneLine]
  | some i =>
    obtain ⟨-, -, -, u, hu, hk, htext⟩ := hline.token i htoken
    have hbreaks := Piece.isCutProperty_breaksAlone.tokenize (Array.mem_of_getElem? hu)
    have hzero : Text.lineBreaks u.text.toList = 0 := by
      rw [hbreaks (by rw [hk]; rfl), if_neg (by simp [hk])]
    rw [← htext]
    exact Text.lineBreaks_eq_zero.mp hzero

end Tag

namespace TypedTag
open Text

/-- A type in its recommended spelling is one line exactly if the quoted lexemes in its place keep to
their line, and what is written into the tag that it was read from is one line exactly then. -/
theorem Form.isOneLine_iff (c : Context) (f : Form) {text spelled : String}
    (hspelled : (f.read c text).spelled = some spelled) : ∃ span,
    (f.read c text).span = some span ∧ (IsOneLine spelled.toList ↔ QuotesKeepLine text span) ∧
    ∀ (source : String) (opener : Nat) (d : DocComment) (tag : Tag) (r : Report),
      DocComment.read (tokenize source) opener = .ok d → tag ∈ d.tags → tag.text = text →
      r.tokens = tokenize source → r.changeset = some [] →
      ∃ first last written, first ≤ last ∧ r.writeType tag span spelled =
          .ok { r with changeset := some (Report.replacements first last written) } ∧
        (IsOneLine written.toList ↔ QuotesKeepLine text span) := by
  obtain ⟨span, hspan, hiff⟩ := exists_span hspelled
  refine ⟨span, hspan, hiff, ?_⟩
  rintro source opener d tag r hd htag rfl hr hchanges
  have hlaid := DocComment.read_laidOut hd tag htag
  obtain ⟨first, last, -, left, -, right, -, -, -, ⟨l, hl, hleft⟩, ⟨m, hm, hright⟩, hle, -, hwrite⟩ :=
    Report.exists_replacements hr hchanges (DocComment.read_standsIn hd tag htag) hlaid
      hspelled hspan
  refine ⟨first, last, _, hle, hwrite, ?_⟩
  have hl' : IsOneLine left := fun c hc => hlaid.isOneLine hl c (hleft hc)
  have hr' : IsOneLine right := fun c hc => hlaid.isOneLine hm c (hright hc)
  rw [String.toList_append, String.toList_append, String.toList_ofList, String.toList_ofList,
    isOneLine_append, isOneLine_append, and_iff_left hr', and_iff_right hl', hiff]

def twoLineLiteral : String :=
  "<?php\n/** @return 'a\n *   b'|integer */"

def twoLineReport : Report :=
  { file := "a", tokens := tokenize twoLineLiteral, changeset := some [] }

theorem isOneLine_iff_twoLineLiteral :
    (read {} "'a\nb'|integer").spelled = some "'a\nb'|int" ∧ ¬IsOneLine "'a\nb'|int".toList ∧
      ∃ d tag first last written, DocComment.read (tokenize twoLineLiteral) 1 = .ok d ∧
        tag ∈ d.tags ∧ tag.text = "'a\nb'|integer" ∧
        twoLineReport.writeType tag (0, 13) "'a\nb'|int" = .ok { twoLineReport with
          changeset := some (Report.replacements first last written) } ∧
        ¬IsOneLine written.toList := by
  have hspelled : ((Form.typed .type).read {} "'a\nb'|integer").spelled = some "'a\nb'|int" := by
    decide +kernel
  have hplace : ((Form.typed .type).read {} "'a\nb'|integer").span = some (0, 13) := by
    decide +kernel
  have hquotes : ¬QuotesKeepLine "'a\nb'|integer" (0, 13) := by decide +kernel
  obtain ⟨d, hd, tag, htag, htext⟩ : ∃ d, DocComment.read (tokenize twoLineLiteral) 1 = .ok d ∧
      ∃ tag ∈ d.tags, tag.text = "'a\nb'|integer" :=
    ⟨⟨1, [⟨"@return", 3, [⟨"'a", some 5⟩, ⟨"b'|integer", some 10⟩]⟩]⟩, by decide +kernel,
      ⟨"@return", 3, [⟨"'a", some 5⟩, ⟨"b'|integer", some 10⟩]⟩, by simp, by decide +kernel⟩
  obtain ⟨span, hspan, hiff, hwrite⟩ := Form.isOneLine_iff {} (.typed .type) hspelled
  obtain rfl : span = (0, 13) := Option.some.inj (hspan.symm.trans hplace)
  obtain ⟨first, last, written, -, he, hline⟩ :=
    hwrite twoLineLiteral 1 d tag twoLineReport hd htag htext rfl rfl
  exact ⟨hspelled, mt hiff.mp hquotes, d, tag, first, last, written, hd, htag, htext, he,
    mt hline.mp hquotes⟩

/-- A type may be spelled as two lines. -/
theorem not_isOneLine_spelled : ¬∀ (c : Context) (f : Form) (text spelled : String),
    (f.read c text).spelled = some spelled → IsOneLine spelled.toList := by
  intro h
  have hline := h {} (.typed .type) "'a\nb'" "'a\nb'" (by decide +kernel)
  revert hline
  decide

end TypedTag
end PhpDoc
