import PhpDoc.Proofs.EditedTokens
import PhpDoc.Proofs.OneLine
import PhpDoc.Proofs.RenumberedDeclarations
import PhpDoc.Proofs.TagTexts
/-!
Rewrites of tags: what takes the place of a type and of the rest of its lines is a text like the one
that stood there, so that the file is cut into the same tokens around it.
-/
namespace PhpDoc

namespace Lexing
variable {c : Char} {cs ds rest tail gap text : List Char} {k : LexemeKind} {n m : Nat} {sp sp' : Bool}
  {ls : List Lexeme}

/-- The recommended spelling of a word begins alike, or with a letter like the word. -/
theorem head_respell (words : List Nat) (l : Lexeme) :
    (TypedTag.respell words l).toList.head? = l.text.toList.head? ∨
      ((TypedTag.respell words l).toList.head?.any Char.isAlpha = true ∧
        l.text.toList.head?.any Char.isAlpha = true) := by
  have hwords : ∀ r ∈ Words.recommended, r.2.toList.head?.any Char.isAlpha = true ∧
      r.1.toList.head?.any Char.isAlpha = true := by decide
  exact (TypedTag.respell_cases words l).imp (congrArg fun s : String => s.toList.head?) (hwords _)

/-- No lexeme ends with white space. -/
theorem isWhiteSpace_getLast?_lexeme (hc : Text.isWhiteSpace c = false)
    (ht : lexemeTail c (tail ++ rest) = some (k, tail.length)) :
    ∀ d ∈ (c :: tail).getLast?, Text.isWhiteSpace d = false := by
  intro d hd
  obtain ⟨-, hlast⟩ | hall := lexeme_cases hc ht
  · rw [List.take_left] at hlast
    rw [List.getLast?_cons, hlast] at hd
    obtain rfl : c = d := Option.some.inj hd
    exact hc
  · rw [List.take_left] at hall
    exact hall d (List.mem_of_getLast? hd)

/-- Nor does its recommended spelling. -/
theorem isWhiteSpace_getLast?_respell (words : List Nat) {l : Lexeme}
    (h : ∀ d ∈ l.text.toList.getLast?, Text.isWhiteSpace d = false) :
    ∀ d ∈ (TypedTag.respell words l).toList.getLast?, Text.isWhiteSpace d = false := by
  have hwords : ∀ r ∈ Words.recommended, ∀ d ∈ r.2.toList.getLast?,
      Text.isWhiteSpace d = false := by decide
  obtain he | hm := TypedTag.respell_cases words l
  · rwa [he]
  · exact hwords _ hm

theorem respell_ne_nil (words : List Nat) {l : Lexeme} (h : l.text.toList ≠ []) :
    (TypedTag.respell words l).toList ≠ [] :=
  mt (milder_respell words l).nil_iff.mp h

/-- The recommended spelling of lexemes does not end with white space. -/
theorem Lexed.getLast?_spellAfter (words : List Nat) (h : Lexed n sp cs ls m sp' ds) :
    ∀ d ∈ (TypedTag.spellAfter text words n ls).getLast?, Text.isWhiteSpace d = false := by
  induction h with
  | nil => simp [TypedTag.spellAfter]
  | @cons n m sp sp' gap tail rest ds c k ls hgap hc ht hl ih =>
    have hlexeme : ∀ d ∈ (String.ofList (c :: tail)).toList.getLast?, Text.isWhiteSpace d = false := by
      rw [String.toList_ofList]
      exact isWhiteSpace_getLast?_lexeme hc ht
    rw [TypedTag.spellAfter, stop_eq]
    by_cases hnil : TypedTag.spellAfter text words (n + gap.length + 1 + tail.length) ls = []
    · rw [hnil, List.append_nil, List.getLast?_append_of_ne_nil _ (respell_ne_nil _ (by simp))]
      exact isWhiteSpace_getLast?_respell words hlexeme
    · rw [List.getLast?_append_of_ne_nil _ hnil]
      exact ih

end Lexing

namespace TypedTag.Form
open Lexing
variable {c : Context} {text spelled : String} {f : Form} {span : Nat × Nat}

/-- A type in its recommended spelling begins like the type that was read, or with a letter like it,
and does not end with white space. -/
theorem ends_of_spelled (hspelled : (f.read c text).spelled = some spelled)
    (hspan : (f.read c text).span = some span) :
    (spelled.toList.head? = (text.toList.drop span.1).head? ∨
      (spelled.toList.head?.any Char.isAlpha = true ∧
        (text.toList.drop span.1).head?.any Char.isAlpha = true)) ∧
    ∀ d ∈ spelled.toList.getLast?, Text.isWhiteSpace d = false := by
  obtain ⟨n, sp, reading, after, hread, rfl, hread', -⟩ := exists_reading hspelled
  obtain rfl : reading.span = span := Option.some.inj (hread'.symm.trans hspan)
  obtain ⟨first, others, m, sp', ds, hl, hspell, hplace, -⟩ := exists_lexed_of_readType hread
  generalize hcs : text.toList.drop n = cs at hl
  rw [hspell, hplace]
  cases hl with
  | @cons _ _ _ _ gap tail rest _ ch k _ hgap hc hk hl =>
    have hlexeme := isWhiteSpace_getLast?_lexeme hc hk
    have hne := respell_ne_nil after.words
      (l := ⟨k, n + gap.length, String.ofList (ch :: tail), sp || !gap.isEmpty⟩) (by simp)
    rw [spell, String.toList_ofList, stop_eq]
    constructor
    · rw [List.head?_append_of_ne_nil _ hne, ← List.drop_drop, hcs, List.drop_left]
      simpa using head_respell after.words
        ⟨k, n + gap.length, String.ofList (ch :: tail), sp || !gap.isEmpty⟩
    · by_cases hnil : spellAfter text.toList after.words (n + gap.length + 1 + tail.length) others = []
      · rw [hnil, List.append_nil]
        exact isWhiteSpace_getLast?_respell _ (by simpa using hlexeme)
      · rw [List.getLast?_append_of_ne_nil _ hnil]
        exact hl.getLast?_spellAfter _

end TypedTag.Form
namespace Text
variable {xs ys : List Char} {lines : List (List Char)}

def above (lines : List (List Char)) : List Char :=
  lines.flatMap (· ++ ['\n'])

def below (lines : List (List Char)) : List Char :=
  lines.flatMap ('\n' :: ·)

theorem intercalate_eq (before : List (List Char)) (l : List Char) (after : List (List Char)) :
    ['\n'].intercalate (before ++ l :: after) = above before ++ l ++ below after := by
  induction before with
  | nil =>
    rw [List.nil_append]
    induction after generalizing l with
    | nil => simp [above, below]
    | cons m after ih =>
      rw [List.intercalate_cons_cons, ih]
      simp [above, below]
  | cons k before ih =>
    obtain ⟨m, rest, hrest⟩ : ∃ m rest, before ++ l :: after = m :: rest := by
      cases before <;> exact ⟨_, _, rfl⟩
    rw [List.cons_append, hrest, List.intercalate_cons_cons, ← hrest, ih]
    simp [above]

/-- A cut of a text of several lines is one of a line between those above and those below. -/
theorem exists_lines (h : ∀ l ∈ lines, '\n' ∉ l) (hne : lines ≠ [])
    (hcut : ['\n'].intercalate lines = xs ++ ys) : ∃ left right,
      lines[xs.count '\n']? = some (left ++ right) ∧ left.length = column xs ∧
      xs = above (lines.take (xs.count '\n')) ++ left ∧
      ys = right ++ below (lines.drop (xs.count '\n' + 1)) := by
  induction lines generalizing xs with
  | nil => exact absurd rfl hne
  | cons l rest ih =>
    obtain ⟨hl, hrest⟩ := List.forall_mem_cons.mp h
    -- a cut within the first line
    have hfirst : ∀ right, l = xs ++ right → ys = right ++ below rest → ∃ left right,
        (l :: rest)[xs.count '\n']? = some (left ++ right) ∧ left.length = column xs ∧
        xs = above ((l :: rest).take (xs.count '\n')) ++ left ∧
        ys = right ++ below ((l :: rest).drop (xs.count '\n' + 1)) := by
      intro right hsplit hys
      have hxs : '\n' ∉ xs := fun hmem => hl (hsplit ▸ List.mem_append_left _ hmem)
      rw [List.count_eq_zero.mpr hxs]
      exact ⟨xs, right, congrArg some hsplit, (column_of_not_mem hxs).symm, rfl, hys⟩
    cases rest with
    | nil =>
      rw [List.intercalate_singleton] at hcut
      exact hfirst ys hcut (List.append_nil ys).symm
    | cons m rest =>
      have hbelow : '\n' :: ['\n'].intercalate (m :: rest) = below (m :: rest) := by
        rw [← List.nil_append (m :: rest), intercalate_eq]
        simp [above, below]
      rw [List.intercalate_cons_cons, List.append_assoc] at hcut
      obtain ⟨right, hright, hys⟩ | ⟨tail, rfl, htail⟩ := List.append_eq_append_iff.mp hcut.symm
      · exact hfirst right hright (hbelow ▸ hys)
      · cases tail with
        | nil => exact hfirst [] (by simp) (by rw [List.nil_append, ← hbelow]; exact htail.symm)
        | cons c tail =>
          obtain ⟨rfl, hrest'⟩ := List.cons.inj htail
          obtain ⟨left, right, hline, hcol, hxs, hys⟩ := ih hrest (List.cons_ne_nil m rest) hrest'
          have hcount : (l ++ '\n' :: tail).count '\n' = tail.count '\n' + 1 := by
            rw [List.count_append, List.count_eq_zero.mpr hl, Nat.zero_add, List.count_cons_self]
          rw [hcount, column_append]
          refine ⟨left, right, hline, hcol, ?_, hys⟩
          rw [List.take_succ_cons, above, List.flatMap_cons, List.append_assoc, ← above,
            List.append_assoc, ← hxs]
          rfl

end Text

def Tag.IsNamedIn (ts : Tokens) (t : Tag) : Prop :=
  ∃ o c, DocComment.read ts o = .ok c ∧ t ∈ c.allNamed

namespace DocComment
variable {ts : Tokens} {start stop : Nat} {t : Tag}

/-- A tag stands where its name does, and has what follows up to the end of the comment. -/
theorem eq_tagOf_of_mem (ht : t ∈ tagsFrom (between ts start stop)) : ∃ u, ts[t.place]? = some u ∧
    u.kind = .docTag ∧ start ≤ t.place ∧ t.place < stop ∧
    t = tagOf u.text t.place (between ts (t.place + 1) stop) := by
  generalize hn : stop - start = n
  induction n generalizing start with
  | zero =>
    rw [between_of_le (by omega)] at ht
    cases ht
  | succ n ih =>
    have hlater := fun ht => @ih (start + 1) ht (by omega)
    rw [between_of_lt (by omega)] at ht
    cases hu : ts[start]? with
    | none =>
      rw [hu] at ht
      obtain ⟨u, hget, hk, hle, hlt, he⟩ := hlater ht
      exact ⟨u, hget, hk, by omega, hlt, he⟩
    | some u =>
      rw [hu, Option.map_some, Option.toList_some, List.singleton_append, tagsFrom] at ht
      split at ht
      · rename_i hk
        rcases List.mem_cons.mp ht with rfl | ht
        · exact ⟨u, hu, hk, Nat.le_refl _, by simp only [tagOf]; omega, rfl⟩
        · obtain ⟨v, hget, hk, hle, hlt, he⟩ := hlater ht
          exact ⟨v, hget, hk, by omega, hlt, he⟩
      · obtain ⟨v, hget, hk, hle, hlt, he⟩ := hlater ht
        exact ⟨v, hget, hk, by omega, hlt, he⟩

end DocComment

namespace Tag.IsNamedIn
open DocComment
variable {source : String} {t t' : Tag}

/-- A tag of a file is told by its place. -/
theorem spec (h : t.IsNamedIn (tokenize source)) : ∃ u stop, (tokenize source)[t.place]? = some u ∧
    u.kind = .docTag ∧ (tokenize source).commentEnd (t.place + 1) = some stop ∧
    t = tagOf u.text t.place (between (tokenize source) (t.place + 1) stop) := by
  obtain ⟨o, c, hread, ht⟩ := h
  rw [DocComment.read] at hread
  split at hread
  · rename_i stop hend
    cases hread
    rw [allNamed_ofParts (tokenize_spoken source) (follow_of_commentEnd hend)] at ht
    obtain ⟨u, hu, hk, hle, hlt, he⟩ := eq_tagOf_of_mem ht
    have hopen := kind?_of_commentEnd hend
    rw [tokenize_opened source o hopen] at hend
    have hstretch := (tokenize_enclosed source).stretch hopen hend
    have hclose := (Tokens.commentEnd_spec hend).2.1
    exact ⟨u, stop, hu, hk, hstretch.commentEnd_eq hclose (by omega) hlt, he⟩
  · cases hread

theorem eq_of_place (h : t.IsNamedIn (tokenize source)) (h' : t'.IsNamedIn (tokenize source))
    (hplace : t.place = t'.place) : t = t' := by
  obtain ⟨u, stop, hu, -, hstop, he⟩ := h.spec
  obtain ⟨u', stop', hu', -, hstop', he'⟩ := h'.spec
  rw [← hplace] at hu' hstop' he'
  obtain rfl : u = u' := Option.some.inj (hu.symm.trans hu')
  obtain rfl : stop = stop' := Option.some.inj (hstop.symm.trans hstop')
  exact he.trans he'.symm

theorem heads (h : t.IsNamedIn (tokenize source)) : Heads (tokenize source) t := by
  obtain ⟨o, c, hread, ht⟩ := h
  rw [DocComment.read] at hread
  split at hread
  · rename_i stop hend
    cases hread
    have hfollow := follow_of_commentEnd hend
    rw [allNamed_ofParts (tokenize_spoken source) hfollow] at ht
    exact (heads_of_tagsFrom (tokenize_spoken source) hfollow t ht).2
  · cases hread

theorem standsIn (h : t.IsNamedIn (tokenize source)) : t.StandsIn (tokenize source) := by
  obtain ⟨o, c, hread, ht⟩ := h
  exact read_standsIn hread t (List.mem_filter.mp ht).1

theorem laidOut (h : t.IsNamedIn (tokenize source)) : t.LaidOut (tokenize source) := by
  obtain ⟨o, c, hread, ht⟩ := h
  exact read_laidOut hread t (List.mem_filter.mp ht).1

end Tag.IsNamedIn

namespace Piece

def EndsPlain (p : Piece) : Prop :=
  p.kind = .docText → ∀ d ∈ p.text.getLast?, isDocBlank d = false

theorem isCutProperty_endsPlain : IsCutProperty EndsPlain where
  outside kind text hdoc := by
    rintro rfl
    cases hdoc
  opener text hk := by cases hk
  part atStart c cs kind n hd := by
    rintro rfl d hd'
    have hlength := List.length_take_of_le (docTail_le hd)
    obtain ⟨⟨-, -, hc, -⟩, htail⟩ := docTail_text hd
    have hall : textTail (cs.take n ++ cs.drop n) = (cs.take n).length := by
      rw [List.take_append_drop, hlength, htail]
    rw [List.getLast?_cons] at hd'
    cases hlast : (cs.take n).getLast? with
    | none =>
      rw [hlast] at hd'
      obtain rfl : c = d := Option.some.inj hd'
      exact hc
    | some e =>
      rw [hlast] at hd'
      obtain rfl : e = d := Option.some.inj hd'
      exact (textTail_eq_iff.mp hall).2.2.1 e hlast

theorem isDocBlank_of_isWhiteSpace {d : Char} (h : Text.isWhiteSpace d = false) :
    isDocBlank d = false := by
  refine Bool.eq_false_iff.mpr fun hd => ?_
  have hblank : d = ' ' ∨ d = '\t' ∨ d = '\x0c' ∨ d = '\x0b' := by
    simpa [isDocBlank, or_assoc] using hd
  rcases hblank with rfl | rfl | rfl | rfl <;> cases h

end Piece

/-- A type of a tag that is to be rewritten: its place in the tag and its recommended spelling. -/
structure Rewrite where
  tag : Tag
  span : Nat × Nat
  spelled : String
deriving DecidableEq

structure Replacement where
  first : Nat
  last : Nat
  text : String

structure Replacement.Suits (ts : Tokens) (place : Nat) (r : Replacement) : Prop where
  tag : ts.kind? place = some .docTag
  lt : place < r.first
  le : r.first ≤ r.last
  body : ts.IsBody (place + 1) (r.last + 1)
  first : ∃ u, ts[r.first]? = some u ∧ u.kind = .docText ∧
    Text.Fits u.text.toList.head? r.text.toList
  last : ts.kind? r.last = some .docText

namespace Rewrite
open Text TypedTag Lexing
variable {w : Rewrite} {source : String}

/-- What is written for a type, and in the place of which tokens: the lines of the tag from the one on
which the type begins to the one on which it ends become one line. -/
def replacement? (w : Rewrite) : Option Replacement :=
  let start := LinePosition.of w.tag.text w.span.1
  let stop := LinePosition.of w.tag.text w.span.2
  match w.tag.lines[start.line]?, w.tag.lines[stop.line]? with
  | some ⟨before, some first⟩, some ⟨after, some last⟩ =>
    some ⟨first, last,
      slice before 0 start.column ++ w.spelled ++ dropFirst stop.column after⟩
  | _, _ => none

structure IsOf (ts : Tokens) (w : Rewrite) : Prop where
  tag : w.tag.IsNamedIn ts
  read : ∃ c f, (Form.read c w.tag.text f).spelled = some w.spelled ∧
    (Form.read c w.tag.text f).span = some w.span
  quotes : QuotesKeepLine w.tag.text w.span

structure Splits (w : Rewrite) (r : Replacement) (a b : Nat) (left right : List Char) : Prop where
  le : a ≤ b
  first : ∃ l, w.tag.lines[a]? = some l ∧ l.token = some r.first ∧ ∃ rest ≠ [],
    l.text.toList = left ++ rest ∧ rest.head? = (w.tag.text.toList.drop w.span.1).head?
  last : ∃ l, w.tag.lines[b]? = some l ∧ l.token = some r.last ∧ ∃ rest ≠ [],
    l.text.toList = rest ++ right
  text : r.text.toList = left ++ w.spelled.toList ++ right
  above : w.tag.text.toList.take w.span.1 =
    above ((w.tag.lines.take a).map (·.text.toList)) ++ left
  below : w.tag.text.toList.drop w.span.2 =
    right ++ below ((w.tag.lines.drop (b + 1)).map (·.text.toList))

theorem head?_below (lines : List (List Char)) : ∀ c ∈ (Text.below lines).head?, c = '\n' := by
  cases lines <;> simp [Text.below]

/-- A type that was read from a tag of the file is written between what stands before and after it on
its lines. -/
theorem IsOf.exists_replacement (h : w.IsOf (tokenize source)) : ∃ r a b left right,
    w.replacement? = some r ∧ w.Splits r a b left right := by
  obtain ⟨c, f, hspelled, hspan⟩ := h.read
  obtain ⟨before, written, after, htext, hplace, hhead, hlast, hne, -⟩ :=
    Form.exists_stretch hspelled hspan
  have hstands := h.tag.standsIn
  have hlaid := h.tag.laidOut
  have hlines : ∀ l ∈ w.tag.lines.map (·.text.toList), '\n' ∉ l := by
    simpa using fun l hl => (hstands.lines l hl).text
  have hlines' : w.tag.lines.map (·.text.toList) ≠ [] := by simpa using hstands.nonempty
  have hstart : w.tag.text.toList = before ++ (written ++ after) := by
    rw [htext, List.append_assoc]
  obtain ⟨left, rest, hline, hcol, habove, hbelow⟩ :=
    exists_lines hlines hlines' (w.tag.toList_text.symm.trans hstart)
  obtain ⟨rest', right, hline', hcol', -, hbelow'⟩ :=
    exists_lines hlines hlines' (w.tag.toList_text.symm.trans htext)
  -- the type does not begin at the end of a line, nor end at the beginning of one
  have hrest : rest ≠ [] := by
    rintro rfl
    obtain ⟨d, written, rfl⟩ := List.exists_cons_of_ne_nil hne
    exact hhead (congrArg some (head?_below _ d (congrArg List.head? hbelow.symm)))
  have hrest' : rest' ≠ [] := by
    rintro rfl
    have hpos := column_pos (by rwa [List.getLast?_append_of_ne_nil _ hne])
      (by simp [hne] : before ++ written ≠ [])
    rw [← hcol'] at hpos
    exact Nat.lt_irrefl 0 hpos
  rw [List.getElem?_map] at hline hline'
  obtain ⟨l, hl, hltext⟩ := Option.map_eq_some_iff.mp hline
  obtain ⟨m, hm, hmtext⟩ := Option.map_eq_some_iff.mp hline'
  obtain ⟨first, hfirst⟩ := hlaid.exists_token hl (by simp [hltext, hrest])
  obtain ⟨last, hlast⟩ := hlaid.exists_token hm (by simp [hmtext, hrest'])
  have hslice : slice l.text 0 (column before) = String.ofList left := by
    rw [slice, hltext, List.take_left' hcol, List.drop_zero]
  have hdrop : dropFirst (column (before ++ written)) m.text = String.ofList right := by
    rw [dropFirst, hmtext, List.drop_left' hcol']
  have hstop := Report.position_of htext
  rw [List.length_append] at hstop
  refine ⟨⟨first, last, String.ofList left ++ w.spelled ++ String.ofList right⟩, before.count '\n',
    (before ++ written).count '\n', left, right, ?_, by simp [List.count_append],
    ⟨l, hl, hfirst, rest, hrest, hltext, ?_⟩, ⟨m, hm, hlast, rest', hrest', hmtext⟩, by simp, ?_, ?_⟩
  · obtain ⟨ltext, ltoken⟩ := l
    obtain ⟨mtext, mtoken⟩ := m
    obtain rfl : ltoken = some first := hfirst
    obtain rfl : mtoken = some last := hlast
    unfold replacement?
    simp only [hplace, Report.position_of hstart, hstop, hl, hm, hslice, hdrop]
  · rw [hplace, hstart, List.drop_left, hbelow, List.head?_append_of_ne_nil _ hrest]
  · rw [hplace, hstart, List.take_left, List.map_take]
    exact habove
  · rw [hplace, htext, ← List.length_append, List.drop_left, List.map_drop]
    exact hbelow'

/-- What is written is like what stood there. -/
theorem IsOf.fits (h : w.IsOf (tokenize source)) {r : Replacement} {a b : Nat} {left right : List Char}
    (hs : w.Splits r a b left right) {l : TagLine} (hl : w.tag.lines[a]? = some l) :
    Text.Fits l.text.toList.head? r.text.toList := by
  obtain ⟨c, f, hspelled, hspan⟩ := h.read
  obtain ⟨before, written, after, htext, hplace, -, -, hwritten, hmild⟩ :=
    Form.exists_stretch hspelled hspan
  obtain ⟨hbegins, hends⟩ := Form.ends_of_spelled hspelled hspan
  obtain ⟨l', hl', -, rest, hrest, hltext, hhead⟩ := hs.first
  obtain rfl : l = l' := Option.some.inj (hl.symm.trans hl')
  obtain ⟨m, hm, hmtoken, front, -, hmtext⟩ := hs.last
  have hlaid := h.tag.laidOut
  have hne : w.spelled.toList ≠ [] := mt hmild.nil_iff.mp hwritten
  have hr := hs.text
  refine ⟨by simp [hr, hne], ?_, ?_, ?_, ?_⟩
  · have hleft : IsOneLine left := fun d hd =>
      hlaid.isOneLine (List.mem_of_getElem? hl) d (hltext ▸ List.mem_append_left _ hd)
    have hright : IsOneLine right := fun d hd =>
      hlaid.isOneLine (List.mem_of_getElem? hm) d (hmtext ▸ List.mem_append_right _ hd)
    obtain ⟨span, hspan', hiff⟩ := Form.exists_span hspelled
    obtain rfl : span = w.span := Option.some.inj (hspan'.symm.trans hspan)
    rw [hr]
    exact isOneLine_append.mpr ⟨isOneLine_append.mpr ⟨hleft, hiff.mpr h.quotes⟩, hright⟩
  · -- the text of the tag ends no comment, nor does its restyled text, of which this is a part
    have hopen : Text.IsOpen (before ++ w.spelled.toList ++ after) := by
      refine mt (((Milder.refl before).append hmild).append (.refl after)).closes ?_
      rw [← htext]
      exact hlaid.isOpen
    have hbefore : w.tag.text.toList.take w.span.1 = before := by
      rw [hplace, htext, List.append_assoc, List.take_left]
    have hafter : w.tag.text.toList.drop w.span.2 = after := by
      rw [hplace, htext, ← List.length_append, List.drop_left]
    refine mt (fun hcloses => hcloses.trans ?_) hopen
    rw [← hbefore, ← hafter, hs.above, hs.below, hr]
    exact ⟨above ((w.tag.lines.take a).map (·.text.toList)),
      below ((w.tag.lines.drop (b + 1)).map (·.text.toList)), by simp⟩
  · intro d hd
    rw [hr] at hd
    by_cases hright : right = []
    · rw [hright, List.append_nil, List.getLast?_append_of_ne_nil _ hne] at hd
      exact Piece.isDocBlank_of_isWhiteSpace (hends d hd)
    · obtain ⟨_, _, _, -, hlines⟩ := hlaid
      obtain ⟨-, -, -, u, hu, hk, htext⟩ := (hlines b m hm).token _ hmtoken
      have hplain := Piece.isCutProperty_endsPlain.tokenize (Array.mem_of_getElem? hu) hk
      rw [List.getLast?_append_of_ne_nil _ hright] at hd
      refine hplain d ?_
      rw [htext, hmtext, List.getLast?_append_of_ne_nil _ hright]
      exact hd
  · rw [hr, hltext]
    cases left with
    | nil =>
      rw [List.nil_append, List.nil_append, List.head?_append_of_ne_nil _ hne, hhead]
      exact hbegins
    | cons d left => exact .inl rfl

/-- A rewrite replaces a part of the body of its tag. -/
theorem IsOf.suits (h : w.IsOf (tokenize source)) {r : Replacement} {a b : Nat}
    {left right : List Char} (hs : w.Splits r a b left right) :
    r.Suits (tokenize source) w.tag.place := by
  obtain ⟨l, hl, hltoken, -⟩ := hs.first
  obtain ⟨m, hm, hmtoken, -⟩ := hs.last
  obtain ⟨hle, -, -⟩ := h.tag.laidOut.between hs.le hl hltoken hm hmtoken
  have hfits := h.fits hs hl
  obtain ⟨u, stop, hu, hk, -, hbody, hlines⟩ := h.tag.heads
  obtain ⟨hstart, -, -, v, hv, hvk, hvtext⟩ := (hlines a l hl).token _ hltoken
  obtain ⟨-, hstop, -, v', hv', hvk', -⟩ := (hlines b m hm).token _ hmtoken
  refine ⟨by simp [Tokens.kind?, hu, hk], hstart, hle, fun i hi hi' => hbody i hi (by omega),
    ⟨v, hv, hvk, hvtext ▸ hfits⟩, by simp [Tokens.kind?, hv', hvk']⟩

end Rewrite

end PhpDoc
