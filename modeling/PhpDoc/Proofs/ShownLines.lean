import Mathlib.Data.List.TakeWhile
import PhpDoc.Listing.Layout
import PhpDoc.Proofs.Fixes
/-!
The lines shown under findings. The line that is shown is found by counting line breaks, but the text
is displayed in lines that end at other characters, too: it is the line of the finding unless such a
character comes before the end of that line.
-/
namespace PhpDoc
namespace Text

/-- A character that ends a line as it is displayed, but no line of the source. -/
def endsOnlyDisplay (c : Char) : Bool :=
  endsDisplayLine c && c != '\r' && c != '\n'

def firstLine (s : List Char) : List Char :=
  s.takeWhile fun c => c ≠ '\r' ∧ c ≠ '\n'

def displayBreaks : List Char → Nat
  | [] => 0
  | '\r' :: '\n' :: s => displayBreaks s + 1
  | c :: s => if endsDisplayLine c then displayBreaks s + 1 else displayBreaks s

def lastDisplayed (s : List Char) : List Char :=
  (s.reverse.takeWhile fun c => !endsDisplayLine c).reverse

def firstDisplayed (s : List Char) : List Char :=
  s.takeWhile fun c => !endsDisplayLine c

variable {s t line : List Char} {c : Char}

theorem endsDisplayLine_iff :
    endsDisplayLine c = true ↔ (c = '\r' ∨ c = '\n') ∨ endsOnlyDisplay c = true := by
  by_cases hr : c = '\r'
  · subst hr
    decide
  by_cases hn : c = '\n'
  · subst hn
    decide
  simp [endsOnlyDisplay, hr, hn]

/-- What ends a line of the source ends a displayed one, too. -/
theorem displayBreaks_eq (s : List Char) :
    displayBreaks s = lineBreaks s + s.countP endsOnlyDisplay := by
  have hbreak : endsOnlyDisplay '\r' = false ∧ endsOnlyDisplay '\n' = false := by decide
  fun_induction lineBreaks s with
  | case1 => rfl
  | case2 s ih =>
    rw [displayBreaks, ih, List.countP_cons, List.countP_cons, hbreak.1, hbreak.2]
    simp only [Bool.false_eq_true, if_false]
    omega
  | case3 c s hcrlf hc ih =>
    have hno : endsOnlyDisplay c = false := by
      obtain rfl | rfl := hc
      · exact hbreak.1
      · exact hbreak.2
    rw [displayBreaks.eq_3 c s hcrlf, if_pos (endsDisplayLine_iff.mpr (.inl hc)), ih,
      List.countP_cons, hno]
    simp only [Bool.false_eq_true, if_false]
    omega
  | case4 c s hcrlf hc ih =>
    rw [displayBreaks.eq_3 c s hcrlf, ih, List.countP_cons]
    by_cases he : endsOnlyDisplay c = true
    · rw [if_pos (endsDisplayLine_iff.mpr (.inr he)), if_pos he, Nat.add_assoc]
    · rw [if_neg (mt endsDisplayLine_iff.mp (not_or.mpr ⟨hc, he⟩)), if_neg he, Nat.add_zero]

theorem lastDisplayed_append_cons (hc : endsDisplayLine c = true) (s t : List Char) :
    lastDisplayed (s ++ c :: t) = lastDisplayed t := by
  rw [lastDisplayed, lastDisplayed, List.reverse_append, List.reverse_cons, List.append_assoc,
    List.takeWhile_append]
  split
  · next hall =>
    rw [(List.takeWhile_prefix _).eq_of_length hall]
    simp [hc]
  · rfl

/-- The lines that end before a cut, and what is left of the one in which it falls. -/
theorem displayLinesFrom_append (h : Apart s t) (hline : ∀ c ∈ line, endsDisplayLine c = false) :
    ∃ lines : List String, lines.length = displayBreaks s ∧
      displayLinesFrom line (s ++ t) =
        lines ++ displayLinesFrom (lastDisplayed (line.reverse ++ s)).reverse t := by
  fun_induction displayBreaks s generalizing line with
  | case1 =>
    have hlast : (lastDisplayed (line.reverse ++ [])).reverse = line := by
      simpa [lastDisplayed, List.takeWhile_eq_self_iff] using hline
    exact ⟨[], rfl, by rw [hlast]; rfl⟩
  | case2 s ih =>
    obtain ⟨lines, hlen, he⟩ := @ih [] (apart_tail (apart_tail h)) (by simp)
    refine ⟨String.ofList line.reverse :: lines, congrArg (· + 1) hlen, ?_⟩
    rw [lastDisplayed_append_cons (by decide), ← List.nil_append ('\n' :: s),
      lastDisplayed_append_cons (by decide), List.nil_append]
    exact congrArg (String.ofList line.reverse :: ·) he
  | case3 c s hcrlf hc ih =>
    obtain ⟨lines, hlen, he⟩ := @ih [] (apart_tail h) (by simp)
    refine ⟨String.ofList line.reverse :: lines, congrArg (· + 1) hlen, ?_⟩
    rw [lastDisplayed_append_cons hc, List.cons_append,
      displayLinesFrom.eq_3 line c _ fun u hr hn => h.first hcrlf (by rw [hr]; rfl) (by rw [hn]; rfl),
      if_pos hc, he]
    rfl
  | case4 c s hcrlf hc ih =>
    have hline' : ∀ d ∈ c :: line, endsDisplayLine d = false :=
      List.forall_mem_cons.mpr ⟨by simpa using hc, hline⟩
    obtain ⟨lines, hlen, he⟩ := ih (apart_tail h) hline'
    refine ⟨lines, hlen, ?_⟩
    rw [List.cons_append,
      displayLinesFrom.eq_3 line c _ fun u hr hn => h.first hcrlf (by rw [hr]; rfl) (by rw [hn]; rfl),
      if_neg hc, he]
    simp

theorem displayLinesFrom_head (h : line ≠ [] ∨ t ≠ []) :
    (displayLinesFrom line t)[0]? = some (String.ofList (line.reverse ++ firstDisplayed t)) := by
  fun_induction displayLinesFrom line t with
  | case1 line hl => simp_all
  | case2 line hl => simp [firstDisplayed]
  | case3 line s ih => simp [firstDisplayed, endsDisplayLine]
  | case4 line c s hcrlf hc ih => simp [firstDisplayed, hc]
  | case5 line c s hcrlf hc ih =>
    rw [ih (.inl (List.cons_ne_nil c line))]
    simp [firstDisplayed, hc]

/-- The line in which a cut falls is displayed after those that end before the cut. -/
theorem getElem?_displayLines {source : String} (hs : source.toList = s ++ t) (h : Apart s t)
    (ht : t ≠ []) : (displayLines source)[displayBreaks s]? =
      some (String.ofList (lastDisplayed s ++ firstDisplayed t)) := by
  obtain ⟨lines, hlen, he⟩ := displayLinesFrom_append h (List.forall_mem_nil _)
  rw [displayLines, hs, he, List.getElem?_append_right (Nat.le_of_eq hlen), hlen, Nat.sub_self,
    displayLinesFrom_head (.inr ht), List.reverse_reverse]
  rfl

theorem takeWhile_displayed (s : List Char) :
    (s.takeWhile fun c => !endsDisplayLine c) =
      (s.takeWhile fun c => c ≠ '\r' ∧ c ≠ '\n').takeWhile fun c => !endsOnlyDisplay c := by
  rw [List.takeWhile_takeWhile]
  congr 1
  funext c
  rw [Bool.eq_iff_iff, decide_eq_true_iff, Bool.not_eq_true', ← Bool.not_eq_true,
    endsDisplayLine_iff]
  simp only [not_or, decide_eq_true_eq, Bool.not_eq_true', Bool.not_eq_true]
  tauto

theorem lastDisplayed_eq_iff :
    lastDisplayed s = lastLine s ↔ ∀ c ∈ lastLine s, endsOnlyDisplay c = false := by
  rw [lastDisplayed, lastLine, takeWhile_displayed, List.reverse_inj, List.takeWhile_eq_self_iff]
  simp

theorem firstDisplayed_eq_iff :
    firstDisplayed t = firstLine t ↔ ∀ c ∈ firstLine t, endsOnlyDisplay c = false := by
  rw [firstDisplayed, firstLine, takeWhile_displayed, List.takeWhile_eq_self_iff]
  simp

/-- The line in which a cut falls is displayed as it is exactly if no character ends it before. -/
theorem displayed_eq_iff : lastDisplayed s ++ firstDisplayed t = lastLine s ++ firstLine t ↔
    ∀ c ∈ lastLine s ++ firstLine t, endsOnlyDisplay c = false := by
  rw [List.forall_mem_append, ← lastDisplayed_eq_iff, ← firstDisplayed_eq_iff]
  constructor
  · intro h
    have hlast : (lastDisplayed s).length ≤ (lastLine s).length := by
      rw [lastDisplayed, lastLine, takeWhile_displayed, List.length_reverse, List.length_reverse]
      exact (List.takeWhile_prefix _).length_le
    have hfirst : (firstDisplayed t).length ≤ (firstLine t).length := by
      rw [firstDisplayed, firstLine, takeWhile_displayed]
      exact (List.takeWhile_prefix _).length_le
    have hlen := congrArg List.length h
    rw [List.length_append, List.length_append] at hlen
    exact List.append_inj h (by omega)
  · rintro ⟨hlast, hfirst⟩
    rw [hlast, hfirst]

end Text

namespace Report
variable {r : Report} {f : Finding}

theorem mem_of_mem_foldl_hold {disabled : List String} {held fs : List Finding}
    (h : f ∈ fs.foldl (hold disabled) held) : f ∈ held ∨ f ∈ fs := by
  induction fs generalizing held with
  | nil => exact .inl h
  | cons g fs ih =>
    obtain hheld | hfs := ih h
    · unfold hold at hheld
      split at hheld
      · obtain hmem | hmem := List.mem_append.mp hheld
        · exact .inl hmem
        · exact .inr (List.mem_cons.mpr (.inl (List.mem_singleton.mp hmem)))
      · exact .inl hheld
    · exact .inr (List.mem_cons_of_mem g hfs)

theorem exists_locate {e : Event} (h : r.findingOf? e = some f) : ∃ i : Int,
    f.location = r.locate i := by
  cases e with
  | finding code place args =>
    cases h
    exact ⟨_, rfl⟩
  | style code tag span spelled args =>
    cases h
    exact ⟨_, rfl⟩
  | note => cases h

/-- In a file with tokens every finding is placed at one of them. -/
theorem exists_token_of_locate (hsize : r.tokens.size ≠ 0) (i : Int) : ∃ (n : Nat) (t : Token),
    r.tokens[n]? = some t ∧ r.locate i = ⟨r.file, t.line, t.column⟩ := by
  have hlt : min i.toNat (r.tokens.size - 1) < r.tokens.size := by omega
  refine ⟨_, _, Array.getElem?_eq_getElem hlt, ?_⟩
  rw [locate, Array.getElem?_eq_getElem hlt]

end Report

section
variable {config : Config} {file source : String} {f : Finding}

/-- Every finding of a check is placed at a token of the file. -/
theorem exists_token_of_mem_findings (hf : f ∈ (check config file source).findings) :
    ∃ (i : Nat) (t : Token), (tokenize source)[i]? = some t ∧
      f.location = ⟨file, t.line, t.column⟩ := by
  obtain ⟨n, hcheck⟩ := check_spec config file source
  rw [hcheck] at hf
  obtain hf | hf := Report.mem_of_mem_foldl_hold hf
  · cases hf
  · obtain ⟨e, he, hfinding⟩ := List.mem_filterMap.mp hf
    obtain ⟨i, hi⟩ := Report.exists_locate hfinding
    have hsize : (tokenize source).size ≠ 0 := by
      intro hzero
      -- nothing is said about an empty file
      have hnone : Check.events #[] = [] := by decide +kernel
      rw [Check.wanted, Array.size_eq_zero_iff.mp hzero, hnone] at he
      cases he
    rw [hi]
    exact Report.exists_token_of_locate (r := .begin config file (tokenize source)) hsize i

end

/-- A source text is parted before each of its tokens, but not within a CRLF. -/
theorem Tokens.exists_cut {source : String} {i : Nat} {t : Token}
    (h : (tokenize source)[i]? = some t) : ∃ after,
      source.toList = (Tokens.source ((tokenize source).take i)).toList ++ (t.text.toList ++ after) ∧
      Text.Apart (Tokens.source ((tokenize source).take i)).toList (t.text.toList ++ after) ∧
      t.text.toList ≠ [] := by
  have hlined := lined_tokenize source
  have hget : ((tokenize source).toList.map Token.piece)[i]? = some t.piece := by simp [h]
  rw [source_take_tokenize]
  rw [map_piece_tokenize] at hlined hget
  have hsource : source.toList =
      Piece.joined (Piece.assign none (Piece.cut false source.toList)) := by
    have hcut := (Piece.cut_cover false source.toList).joined
    rw [List.flatMap_def, ← Piece.assign_text none, ← List.flatMap_def] at hcut
    exact hcut.symm
  have hne : t.text.toList ≠ [] := by
    obtain ⟨p, hp, htext⟩ : ∃ p ∈ Piece.cut false source.toList, p.text = t.text.toList := by
      have hmem := List.mem_map_of_mem (f := Piece.text) (List.mem_of_getElem? hget)
      rw [Piece.assign_text] at hmem
      exact List.mem_map.mp hmem
    rw [← htext]
    exact (Piece.cut_cover false source.toList).nonempty p hp
  generalize Piece.assign none (Piece.cut false source.toList) = ps at *
  have hrest : Piece.joined (ps.drop i) = t.text.toList ++ Piece.joined (ps.drop (i + 1)) := by
    obtain ⟨hlt, he⟩ := List.getElem?_eq_some_iff.mp hget
    rw [List.drop_eq_getElem_cons hlt, he]
    rfl
  refine ⟨Piece.joined (ps.drop (i + 1)), ?_, ?_, hne⟩
  · rw [← hrest, hsource, Piece.joined, Piece.joined, Piece.joined, ← List.flatMap_append,
      List.take_append_drop]
  · rw [← hrest]
    exact hlined.apart i

namespace Layout
open Text

def underlined (styled : Styler) (f : Finding) (shown : String) (pad : Nat) : List String :=
  let pipe := styled .bold (some .blue) "|"
  let caret := styled .bold (some f.severity.colour) "^"
  [styled .bold (some .blue) (gutter f.location.line) ++ " " ++ pipe ++ " " ++ shown,
    "      " ++ pipe ++ " " ++ String.ofList (List.replicate pad ' ') ++ caret]

/-- What is shown under a finding that is placed after one part of a text and before the other. -/
structure Shows (styled : Styler) (source : String) (f : Finding) (before after : List Char)
    (shown : String) : Prop where
  cut : source.toList = before ++ after
  line : f.location.line = 1 + lineBreaks before
  column : f.location.column = 1 + (lastLine before).length
  excerpt : excerpt styled (displayLines source) f =
    underlined styled f shown (lastLine before).length
  counted : (displayLines source)[lineBreaks before]? = some shown
  displayed : (displayLines source)[displayBreaks before]? =
    some (String.ofList (lastDisplayed before ++ firstDisplayed after))

variable {styled : Styler} {source shown : String} {f : Finding} {before after : List Char}

/-- The caret stands under its column as long as the number of the line has at most five digits. -/
theorem length_gutter {n : Nat} : (gutter n).length = 5 ↔ n < 100000 := by
  have hdigits : (toString (n : Int)).toList.length ≤ 5 ↔ n < 10 ^ 5 :=
    Nat.length_repr_le_iff (by decide)
  rw [gutter, String.length_ofList, List.length_append, List.length_replicate]
  omega

/-- A finding of a file is listed with what is shown under it. -/
theorem exists_report {r : Report} {f : Finding} (hf : f ∈ r.findings) (styled : Styler)
    (source : String) : ∃ front back, report ⟨.text, some styled⟩ r source =
      front ++ "\n".intercalate (coloured styled (displayLines source) f) ++ "\n" ++ back := by
  have hsorted : f ∈ r.findings.mergeSort le := List.mem_mergeSort.mpr hf
  obtain ⟨fs, gs, hsplit⟩ := List.append_of_mem hsorted
  refine ⟨String.join (fs.map (finding ⟨.text, some styled⟩ (displayLines source))),
    String.join (gs.map (finding ⟨.text, some styled⟩ (displayLines source))), ?_⟩
  rw [report, hsplit, ← String.toList_inj]
  simp [finding, String.toList_join]

theorem exists_shows (styled : Styler) (hcut : source.toList = before ++ after)
    (hapart : Apart before after)
    (hafter : after ≠ []) (hline : f.location.line = 1 + lineBreaks before)
    (hcolumn : f.location.column = 1 + (lastLine before).length) :
    ∃ shown, Shows styled source f before after shown := by
  have hdisplayed := getElem?_displayLines hcut hapart hafter
  have hlt : lineBreaks before < (displayLines source).length := by
    have hcount := displayBreaks_eq before
    obtain ⟨hlt, -⟩ := List.getElem?_eq_some_iff.mp hdisplayed
    omega
  have hcounted := List.getElem?_eq_getElem hlt
  refine ⟨_, hcut, hline, hcolumn, ?_, hcounted, hdisplayed⟩
  have hindex : f.location.line.toNat - 1 = lineBreaks before := by omega
  have hpad : f.location.column.toNat - 1 = (lastLine before).length := by omega
  unfold excerpt
  simp only [hindex, hcounted, hpad]
  rw [if_pos (by omega)]
  rfl

/-- The line that is shown is that of the finding exactly if no character that ends a displayed line
only comes before the end of that line. -/
theorem Shows.iff (h : Shows styled source f before after shown) :
    (lineBreaks before = displayBreaks before ∧
      shown = String.ofList (lastLine before ++ firstLine after)) ↔
      ∀ c ∈ before ++ firstLine after, endsOnlyDisplay c = false := by
  have hcount := displayBreaks_eq before
  have hlast : lastLine before ⊆ before := by
    intro c hc
    exact List.mem_reverse.mp (List.takeWhile_subset _ (List.mem_reverse.mp hc))
  have hbefore : lineBreaks before = displayBreaks before ↔
      ∀ c ∈ before, endsOnlyDisplay c = false := by
    rw [hcount, eq_comm, Nat.add_eq_left, List.countP_eq_zero]
    simp
  rw [List.forall_mem_append, hbefore]
  refine and_congr_right fun hno => ?_
  have hshown : shown = String.ofList (lastDisplayed before ++ firstDisplayed after) := by
    have hcounted := h.counted
    rw [hbefore.mpr hno, h.displayed] at hcounted
    exact (Option.some.inj hcounted).symm
  rw [hshown, String.ofList_inj, displayed_eq_iff, List.forall_mem_append]
  exact and_iff_right fun c hc => hno c (hlast hc)

/-- Every finding of a check is listed with a line of the file and a caret in the column of its token.
The line is that of the token, and is shown as it stands in the file, exactly if no character that
ends a displayed line only comes before its end; the caret stands below the token as long as the
number of the line has at most five digits. -/
theorem shows_of_check (styled : Styler) {config : Config} {file : String}
    (hf : f ∈ (check config file source).findings) : ∃ i t before after shown,
      (tokenize source)[i]? = some t ∧
      before = (Tokens.source ((tokenize source).take i)).toList ∧ t.text.toList <+: after ∧
      Shows styled source f before after shown ∧
      (∃ front back, report ⟨.text, some styled⟩ (check config file source) source =
        front ++ "\n".intercalate (coloured styled (displayLines source) f) ++ "\n" ++ back) ∧
      ((lineBreaks before = displayBreaks before ∧
          shown = String.ofList (lastLine before ++ firstLine after)) ↔
        ∀ c ∈ before ++ firstLine after, endsOnlyDisplay c = false) ∧
      ((gutter f.location.line).length = 5 ↔ f.location.line < 100000) := by
  obtain ⟨i, t, ht, hlocation⟩ := exists_token_of_mem_findings hf
  obtain ⟨hline, hcolumn⟩ := Tokens.place_eq ht
  obtain ⟨after, hcut, hapart, hne⟩ := Tokens.exists_cut ht
  obtain ⟨shown, hshows⟩ := exists_shows (f := f) styled hcut hapart (by simp [hne])
    (by rw [hlocation, hline]; push_cast; rfl) (by rw [hlocation, hcolumn]; push_cast; rfl)
  refine ⟨i, t, _, _, shown, ht, rfl, List.prefix_append _ _, hshows, exists_report hf styled source,
    hshows.iff, ?_⟩
  rw [hlocation]
  exact length_gutter.trans Int.ofNat_lt.symm

def pageBreak : String :=
  "<?php\n\x0c\n/** @return */\nfunction f() \x7b\x7d\n"

def pageBreakFinding : Finding :=
  ⟨"phpdoc_fun_ret_type", "PHPDoc function return type missing or malformed", .error, ⟨"a", 3, 5⟩, false⟩

theorem mem_findings_pageBreak : pageBreakFinding ∈ (check {} "a" pageBreak).findings := by
  decide +kernel

theorem shows_of_check_pageBreak : pageBreakFinding ∈ (check {} "a" pageBreak).findings ∧
    ∃ i t before after, (tokenize pageBreak)[i]? = some t ∧
      before = (Tokens.source ((tokenize pageBreak).take i)).toList ∧
      Shows Text.styled pageBreak pageBreakFinding before after "" ∧
      ¬∀ c ∈ before ++ firstLine after, endsOnlyDisplay c = false := by
  refine ⟨mem_findings_pageBreak, ?_⟩
  obtain ⟨i, t, before, after, shown, ht, hbefore, -, hshows, -, hiff, -⟩ :=
    shows_of_check Text.styled mem_findings_pageBreak
  have hline : (3 : Int) = 1 + lineBreaks before := hshows.line
  have hcolumn : (5 : Int) = 1 + (lastLine before).length := hshows.column
  have hthird : (displayLines pageBreak)[2]? = some "" := by decide +kernel
  obtain rfl : shown = "" := by
    have hcounted := hshows.counted
    rw [show lineBreaks before = 2 by omega, hthird] at hcounted
    exact (Option.some.inj hcounted).symm
  refine ⟨i, t, before, after, ht, hbefore, hshows, mt hiff.mpr ?_⟩
  rintro ⟨-, hempty⟩
  have hlen := congrArg (·.toList.length) hempty
  simp only [String.toList_ofList, List.length_append, String.toList_empty, List.length_nil] at hlen
  omega

/-- The line that is shown need not be that of the finding. -/
theorem not_shows_own_line : ¬∀ (config : Config) (file source : String) (f : Finding),
    f ∈ (check config file source).findings → ∃ i < (tokenize source).size,
      ∃ t ∈ (tokenize source)[i]?,
      let before := (Tokens.source ((tokenize source).take i)).toList
      f.location = ⟨file, t.line, t.column⟩ ∧
        excerpt Text.styled (displayLines source) f = underlined Text.styled f
          (String.ofList (lastLine before ++ firstLine (source.toList.drop before.length)))
          (t.column - 1) := by
  intro h
  have hline := h {} "a" pageBreak pageBreakFinding mem_findings_pageBreak
  revert hline
  decide +kernel

end Layout

end PhpDoc
