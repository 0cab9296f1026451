import PhpDoc.Proofs.TagLines
import PhpDoc.Proofs.TypeSpans
/-!
Writing a type into its tag. The lines of the tag that hold it are lines of the file, so that it can
be written; what is written stays inside of the tag and does not end the comment.
-/
namespace PhpDoc

namespace Text
variable {xs ys : List Char}

def column (s : List Char) : Nat :=
  (s.reverse.takeWhile (· ≠ '\n')).length

theorem column_of_not_mem (h : '\n' ∉ xs) : column xs = xs.length := by
  have hall : ∀ c ∈ xs.reverse, decide (c ≠ '\n') = true := by
    intro c hc
    refine decide_eq_true ?_
    rintro rfl
    exact h (List.mem_reverse.mp hc)
  rw [column, ← List.append_nil xs.reverse, List.takeWhile_append_of_pos hall]
  simp

theorem column_append (xs ys : List Char) : column (xs ++ '\n' :: ys) = column ys := by
  rw [column, column, List.reverse_append, List.reverse_cons, List.append_assoc,
    List.takeWhile_append]
  split
  · rename_i hall
    rw [hall]
    simp
  · rfl

theorem column_pos (h : xs.getLast? ≠ some '\n') (hne : xs ≠ []) : 0 < column xs := by
  obtain ⟨front, c, rfl⟩ := (List.eq_nil_or_concat' xs).resolve_left hne
  have hc : c ≠ '\n' := by simpa using h
  simp [column, hc]

/-- A cut of a text of several lines falls into the line after as many as there are line feeds
before it, and leaves its column before the cut. -/
theorem exists_line {lines : List (List Char)} (h : ∀ l ∈ lines, '\n' ∉ l) (hne : lines ≠ [])
    (hcut : ['\n'].intercalate lines = xs ++ ys) : ∃ before left right after,
      lines[xs.count '\n']? = some (left ++ right) ∧ xs = before ++ left ∧ ys = right ++ after ∧
      left.length = column xs ∧ ∀ c ∈ after.head?, c = '\n' := by
  induction lines generalizing xs with
  | nil => exact absurd rfl hne
  | cons l rest ih =>
    obtain ⟨hl, hrest⟩ := List.forall_mem_cons.mp h
    -- a cut within the first line
    have hfirst : ∀ right after, l = xs ++ right → ys = right ++ after →
        (∀ c ∈ after.head?, c = '\n') → ∃ before left right after,
          (l :: rest)[xs.count '\n']? = some (left ++ right) ∧ xs = before ++ left ∧
          ys = right ++ after ∧ left.length = column xs ∧ ∀ c ∈ after.head?, c = '\n' := by
      intro right after hsplit hys hafter
      have hxs : '\n' ∉ xs := fun hmem => hl (hsplit ▸ List.mem_append_left _ hmem)
      refine ⟨[], xs, right, after, ?_, rfl, hys, (column_of_not_mem hxs).symm, hafter⟩
      rw [List.count_eq_zero.mpr hxs, ← hsplit]
      rfl
    cases rest with
    | nil =>
      rw [List.intercalate_singleton] at hcut
      exact hfirst ys [] hcut (List.append_nil ys).symm (by simp)
    | cons m rest =>
      rw [List.intercalate_cons_cons, List.append_assoc] at hcut
      obtain ⟨right, rfl, hys⟩ | ⟨below, rfl, hbelow⟩ := List.append_eq_append_iff.mp hcut.symm
      · exact hfirst right _ rfl hys (by simp)
      · cases below with
        | nil => exact hfirst [] _ (by simp) hbelow.symm (by simp)
        | cons c below =>
          obtain ⟨rfl, hcut'⟩ := List.cons.inj hbelow
          obtain ⟨before, left, right, after, hline, hxs, hys, hcol, hafter⟩ :=
            ih hrest (List.cons_ne_nil m rest) hcut'
          refine ⟨l ++ '\n' :: before, left, right, after, ?_, ?_, hys, ?_, hafter⟩
          · rw [List.count_append, List.count_eq_zero.mpr hl, Nat.zero_add, List.count_cons_self]
            exact hline
          · rw [hxs]
            simp
          · rw [hcol, column_append]

end Text

def Text.IsOpen (s : List Char) : Prop :=
  ¬['*', '/'] <:+: s

namespace Piece

def StaysOpen (p : Piece) : Prop :=
  p.kind = .docText → Text.IsOpen p.text

theorem isOpen_cons {c : Char} {cs : List Char} {n : Nat} (hc : ¬(c = '*' ∧ cs.head? = some '/'))
    (h : Text.IsOpen (cs.take n)) : Text.IsOpen (c :: cs.take n) := by
  rw [Text.IsOpen, List.infix_cons_iff]
  rintro (hstart | hrest)
  · obtain ⟨rfl, hslash⟩ := List.cons_prefix_cons.mp hstart
    obtain ⟨rest, rfl⟩ := hslash.trans (List.take_prefix n cs)
    exact hc ⟨rfl, rfl⟩
  · exact h hrest

theorem isOpen_beforeEnd {accepts : Char → Bool} {cs : List Char} {n : Nat}
    (h : n ≤ beforeEnd accepts cs) : Text.IsOpen (cs.take n) := by
  fun_induction beforeEnd accepts cs generalizing n with
  | case1 | case3 | case4 =>
    obtain rfl : n = 0 := by omega
    simp [Text.IsOpen]
  | case2 c cs hend haccepts ih =>
    cases n with
    | zero => simp [Text.IsOpen]
    | succ n =>
      rw [List.take_succ_cons]
      refine isOpen_cons ?_ (ih (by omega))
      rintro ⟨rfl, hslash⟩
      obtain ⟨rest, rfl⟩ := List.head?_eq_some_iff.mp hslash
      exact hend rest rfl rfl

theorem docTail_isOpen {atStart : Bool} {c : Char} {cs : List Char} {n : Nat}
    (h : docTail atStart c cs = (.docText, n)) : Text.IsOpen (c :: cs.take n) := by
  cases docTail_cut h with
  | text =>
    refine isOpen_cons (fun hend => ?_) (isOpen_beforeEnd (length_docText_le cs))
    cases kind_of_end h hend.1 hend.2

theorem isCutProperty_staysOpen : IsCutProperty StaysOpen where
  outside kind text hdoc := by
    rintro rfl
    cases hdoc
  opener text hk := by cases hk
  part atStart c cs kind n hd := by
    rintro rfl
    exact docTail_isOpen hd

end Piece

theorem Text.isOpen_intercalate {lines : List (List Char)} (h : ∀ l ∈ lines, IsOpen l) :
    IsOpen (['\n'].intercalate lines) := by
  induction lines with
  | nil => simp [IsOpen]
  | cons l rest ih =>
    obtain ⟨hl, hrest⟩ := List.forall_mem_cons.mp h
    cases rest with
    | nil =>
      rw [List.intercalate_singleton]
      exact hl
    | cons m rest =>
      rw [List.intercalate_cons_cons, IsOpen, closes_append, closes_append]
      rintro ((hl' | hfeed | ⟨-, hslash⟩) | hm | ⟨hstar, -⟩)
      · exact hl hl'
      · exact absurd hfeed.length_le (by decide)
      · cases hslash
      · exact ih hrest hm
      · simp at hstar

namespace Tag
variable {ts : Tokens} {t : Tag}

theorem toList_text (t : Tag) :
    t.text.toList = ['\n'].intercalate (t.lines.map (·.text.toList)) := by
  simp [text, String.toList_intercalate, Function.comp_def]

/-- The text of a tag ends no comment. -/
theorem LaidOut.isOpen {source : String} (h : t.LaidOut (tokenize source)) :
    Text.IsOpen t.text.toList := by
  obtain ⟨start, stop, above, -, hlines⟩ := h
  rw [toList_text]
  refine Text.isOpen_intercalate fun l hl => ?_
  obtain ⟨line, hmem, rfl⟩ := List.mem_map.mp hl
  obtain ⟨n, hn⟩ := List.mem_iff_getElem?.mp hmem
  have hline := hlines n line hn
  cases htoken : line.token with
  | none => simp [hline.empty htoken, Text.IsOpen]
  | some i =>
    obtain ⟨-, -, -, u, hu, hk, htext⟩ := hline.token i htoken
    rw [← htext]
    exact Piece.isCutProperty_staysOpen.tokenize (Array.mem_of_getElem? hu) hk

/-- A line that is not empty has a token. -/
theorem LaidOut.exists_token (h : t.LaidOut ts) {n : Nat} {l : TagLine} (hl : t.lines[n]? = some l)
    (hne : l.text.toList ≠ []) : ∃ i, l.token = some i := by
  obtain ⟨start, stop, above, -, hlines⟩ := h
  cases htoken : l.token with
  | none => exact absurd (by simp [(hlines n l hl).empty htoken]) hne
  | some i => exact ⟨i, rfl⟩

/-- A cut of the text of a tag falls into one of its lines. -/
theorem StandsIn.exists_line (h : t.StandsIn ts) {xs ys : List Char}
    (hcut : t.text.toList = xs ++ ys) :
    ∃ l before left right after, t.lines[xs.count '\n']? = some l ∧ l.text.toList = left ++ right ∧
      xs = before ++ left ∧ ys = right ++ after ∧ left.length = Text.column xs ∧
      ∀ c ∈ after.head?, c = '\n' := by
  have hlines : ∀ l ∈ t.lines.map (·.text.toList), '\n' ∉ l := by
    simpa using fun l hl => (h.lines l hl).text
  obtain ⟨before, left, right, after, hline, hrest⟩ :=
    Text.exists_line hlines (by simpa using h.nonempty) (t.toList_text.symm.trans hcut)
  rw [List.getElem?_map] at hline
  obtain ⟨l, hl, htext⟩ := Option.map_eq_some_iff.mp hline
  exact ⟨l, before, left, right, after, hl, htext, hrest⟩

/-- What begins within a line begins in one that has a token. -/
theorem LaidOut.exists_start (hlaid : t.LaidOut ts) (h : t.StandsIn ts) {xs ys : List Char}
    (hcut : t.text.toList = xs ++ ys) (hhead : ys.head? ≠ some '\n') (hne : ys ≠ []) :
    ∃ l i above left, t.lines[xs.count '\n']? = some l ∧ l.token = some i ∧ xs = above ++ left ∧
      Text.slice l.text 0 (Text.column xs) = String.ofList left := by
  obtain ⟨l, above, left, right, below, hl, htext, hxs, hys, hcol, hbelow⟩ := h.exists_line hcut
  have hright : right ≠ [] := by
    rintro rfl
    obtain ⟨c, rest, rfl⟩ := List.exists_cons_of_ne_nil hne
    rw [List.nil_append] at hys
    exact hhead (congrArg some (hbelow c (hys ▸ rfl)))
  obtain ⟨i, hi⟩ := hlaid.exists_token hl (by simp [htext, hright])
  refine ⟨l, i, above, left, hl, hi, hxs, ?_⟩
  rw [Text.slice, htext, List.take_left' hcol, List.drop_zero]

/-- What ends within a line ends in one that has a token. -/
theorem LaidOut.exists_stop (hlaid : t.LaidOut ts) (h : t.StandsIn ts) {xs ys : List Char}
    (hcut : t.text.toList = xs ++ ys) (hlast : xs.getLast? ≠ some '\n') (hne : xs ≠ []) :
    ∃ l i right below, t.lines[xs.count '\n']? = some l ∧ l.token = some i ∧ ys = right ++ below ∧
      Text.dropFirst (Text.column xs) l.text = String.ofList right := by
  obtain ⟨l, above, left, right, below, hl, htext, -, hys, hcol, -⟩ := h.exists_line hcut
  have hleft : left ≠ [] := by
    rintro rfl
    have hpos := Text.column_pos hlast hne
    rw [← hcol] at hpos
    exact Nat.lt_irrefl 0 hpos
  obtain ⟨i, hi⟩ := hlaid.exists_token hl (by simp [htext, hleft])
  refine ⟨l, i, right, below, hl, hi, hys, ?_⟩
  rw [Text.dropFirst, htext, List.drop_left' hcol]

end Tag

namespace Report
variable {r : Report} {source : String}

/-- A replacement that keeps to the body of a tag and does not end the comment. -/
structure IsHarmless (ts : Tokens) (change : Nat × String) : Prop where
  body : ∃ k, ts.kind? change.1 = some k ∧ k.isBody = true
  isOpen : Text.IsOpen change.2.toList

theorem isHarmless_replacements {ts : Tokens} {first last : Nat} {text : String}
    (hle : first ≤ last) (hbody : ts.IsBody first (last + 1)) (hopen : Text.IsOpen text.toList) :
    ∀ change ∈ replacements first last text, IsHarmless ts change := by
  refine List.forall_mem_cons.mpr ⟨⟨hbody first (Nat.le_refl first) (by omega), hopen⟩, ?_⟩
  intro change hmem
  obtain ⟨i, hi, rfl⟩ := List.mem_map.mp hmem
  obtain ⟨hge, hlt⟩ := List.mem_range'_1.mp hi
  exact ⟨hbody i (by omega) (by omega), by simp [Text.IsOpen]⟩

theorem linesHeld_eq (hr : r.tokens = tokenize source) {first last : Nat} (hle : first ≤ last)
    (h : (tokenize source).IsBody first (last + 1)) :
    (tokenize source).breaksBefore first + r.linesHeld first last =
      (tokenize source).breaksBefore (last + 1) + 1 := by
  have hcount := Tokens.lineBreaks_body (show first ≤ last + 1 by omega) h
  have htexts : (String.join ((r.tokens.extract first (last + 1)).toList.map (·.text))).toList =
      Piece.joined ((((tokenize source).toList.take (last + 1)).drop first).map Token.piece) := by
    rw [hr, Array.toList_extract, List.extract_eq_take_drop, ← List.drop_take, String.toList_join,
      List.flatMap_map, Piece.joined, List.flatMap_map]
    rfl
  rw [linesHeld, htexts]
  omega

theorem position_of {text : String} {xs ys : List Char} (h : text.toList = xs ++ ys) :
    LinePosition.of text xs.length = ⟨xs.count '\n', Text.column xs⟩ := by
  rw [LinePosition.of, h, List.take_left]
  rfl

/-- Tokens of the file can be replaced within a changeset. -/
theorem replace_eq (hchanges : r.changeset = some []) {first last : Nat} (hle : first ≤ last)
    (hlast : last < r.tokens.size) (text : String) :
    r.replace first last text =
      .ok { r with changeset := some (replacements first last text) } := by
  have hbounds : (0 : Int) ≤ first ∧ (first : Int) ≤ last ∧ (last : Int) < r.tokens.size := by
    omega
  rw [replace, hchanges]
  simp [hbounds]

/-- A type that was read from a tag of the file can be written into it. What is written is the type
between the beginning of the line of the tag on which it begins and the end of the one on which it
ends. -/
theorem exists_replacements (hr : r.tokens = tokenize source) (hchanges : r.changeset = some [])
    {tag : Tag} (hstands : tag.StandsIn (tokenize source))
    (hlaid : tag.LaidOut (tokenize source)) {c : Context} {f : TypedTag.Form} {spelled : String}
    {span : Nat × Nat} (hspelled : (f.read c tag.text).spelled = some spelled)
    (hspan : (f.read c tag.text).span = some span) : ∃ first last above left written right below,
      tag.text.toList = above ++ left ++ written ++ (right ++ below) ∧
      Text.Milder written spelled.toList ∧ (∃ l ∈ tag.lines, left ⊆ l.text.toList) ∧
      (∃ l ∈ tag.lines, right ⊆ l.text.toList) ∧ first ≤ last ∧
      (tokenize source).IsBody first (last + 1) ∧
      r.writeType tag span spelled = .ok { r with
        changeset := some
          (replacements first last (String.ofList left ++ spelled ++ String.ofList right)) } := by
  obtain ⟨before, written, after, htext, rfl, hhead, hlast, hne, hmild⟩ :=
    TypedTag.Form.exists_stretch hspelled hspan
  have hstart : tag.text.toList = before ++ (written ++ after) := by rw [htext, List.append_assoc]
  obtain ⟨l, first, above, left, hl, hfirst, rfl, hslice⟩ :=
    hlaid.exists_start hstands hstart (by rwa [List.head?_append_of_ne_nil _ hne]) (by simp [hne])
  obtain ⟨m, last, right, below, hm, hlast, rfl, hdrop⟩ :=
    hlaid.exists_stop hstands htext (by rwa [List.getLast?_append_of_ne_nil _ hne]) (by simp [hne])
  obtain ⟨hle, hbody, hbreaks⟩ :=
    hlaid.between (by simp [List.count_append]) hl hfirst hm hlast
  have hheld := linesHeld_eq hr hle hbody
  have hlt : last < r.tokens.size := by
    rw [hr]
    exact (hstands.lines m (List.mem_of_getElem? hm)).token last hlast
  have hleft : left ⊆ l.text.toList := by
    rw [← String.ofList_injective hslice, List.drop_zero]
    exact List.take_subset _ _
  have hright : right ⊆ m.text.toList := by
    rw [← String.ofList_injective hdrop]
    exact List.drop_subset _ _
  refine ⟨first, last, above, left, written, right, below, htext, hmild,
    ⟨l, List.mem_of_getElem? hl, hleft⟩, ⟨m, List.mem_of_getElem? hm, hright⟩, hle, hbody, ?_⟩
  have hstop := position_of htext
  rw [List.length_append] at hstop
  obtain ⟨ltext, ltoken⟩ := l
  obtain ⟨mtext, mtoken⟩ := m
  obtain rfl : ltoken = some first := hfirst
  obtain rfl : mtoken = some last := hlast
  have hspanned : (r.linesHeld first last : Int) =
      ((above ++ left ++ written).count '\n' : Nat) - ((above ++ left).count '\n' : Nat) + 1 := by
    have hcount : (above ++ left).count '\n' ≤ (above ++ left ++ written).count '\n' := by
      simp [List.count_append]
    omega
  unfold writeType
  simp only [position_of hstart, hstop, hl, hm, hslice, hdrop]
  rw [if_pos hspanned]
  exact replace_eq hchanges hle hlt _

/-- What is written into a tag does no harm. -/
theorem writeType_eq (hr : r.tokens = tokenize source) (hchanges : r.changeset = some [])
    {tag : Tag} (hstands : tag.StandsIn (tokenize source))
    (hlaid : tag.LaidOut (tokenize source)) {c : Context} {f : TypedTag.Form} {spelled : String}
    {span : Nat × Nat} (hspelled : (f.read c tag.text).spelled = some spelled)
    (hspan : (f.read c tag.text).span = some span) : ∃ changes,
      r.writeType tag span spelled = .ok { r with changeset := some changes } ∧
      ∀ change ∈ changes, IsHarmless (tokenize source) change := by
  obtain ⟨first, last, above, left, written, right, below, htext, hmild, -, -, hle, hbody, hwrite⟩ :=
    exists_replacements hr hchanges hstands hlaid hspelled hspan
  refine ⟨_, hwrite, isHarmless_replacements hle hbody ?_⟩
  -- the restyled text of the tag ends no comment, and this is a part of it
  have hrestyled : Text.IsOpen (above ++ left ++ spelled.toList ++ (right ++ below)) := by
    refine mt (((Text.Milder.refl (above ++ left)).append hmild).append (.refl _)).closes ?_
    rw [← htext]
    exact hlaid.isOpen
  refine mt (fun hcloses => ?_) hrestyled
  refine hcloses.trans ⟨above, below, ?_⟩
  simp

end Report
end PhpDoc
