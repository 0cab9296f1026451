import PhpDoc.Proofs.Comments
/-!
The places of tokens. No cut falls between the two characters of a CRLF, so that line breaks can be
counted piece by piece: a token starts on the line and in the column that the text before it leads
to.
-/
namespace PhpDoc
namespace Text

/-- Two stretches of text that follow one another without parting a CRLF. -/
def Apart (s t : List Char) : Prop :=
  s.getLast? = some '\r' → t.head? ≠ some '\n'

section
variable {s t u : List Char} {c d : Char}

theorem apart_nil_left (t : List Char) : Apart [] t := by
  simp [Apart]

theorem apart_nil_right (s : List Char) : Apart s [] := by
  simp [Apart]

theorem apart_of_not_mem (h : '\r' ∉ s) : Apart s t :=
  fun hr => absurd (List.mem_of_getLast? hr) h

theorem Apart.cons (hc : c = '\r' → s = [] → t.head? ≠ some '\n') (h : Apart s t) :
    Apart (c :: s) t := by
  cases s with
  | nil =>
    intro hr
    exact hc (Option.some.inj hr) rfl
  | cons d s =>
    intro hr
    rw [List.getLast?_cons_cons] at hr
    exact h hr

theorem Apart.of_append (h : Apart s (t ++ u)) : Apart s t := by
  cases t with
  | nil => exact apart_nil_right s
  | cons d t => exact h

theorem Apart.append (h : Apart s t) (h' : Apart (s ++ t) u) : Apart s (t ++ u) := by
  cases t with
  | nil => simpa using h'
  | cons d t => exact h

theorem Apart.append_left (h : Apart s (t ++ u)) (h' : Apart t u) : Apart (s ++ t) u := by
  cases t with
  | nil => simpa using h
  | cons d t =>
    intro hr
    exact h' (by simpa using hr)

theorem Apart.right (h : Apart (s ++ t) u) : Apart t u := by
  cases t with
  | nil => exact apart_nil_left u
  | cons d t =>
    intro hr
    exact h (by rw [List.getLast?_append, hr]; rfl)

theorem apart_tail (h : Apart (c :: s) t) : Apart s t :=
  Apart.right (s := [c]) h

theorem lineBreaks_cons (h : Apart [c] s) :
    lineBreaks (c :: s) = (if c = '\r' ∨ c = '\n' then 1 else 0) + lineBreaks s := by
  rw [lineBreaks.eq_3 c s fun u hc hs => h (by rw [hc]; rfl) (by rw [hs]; rfl)]
  split
  · exact Nat.add_comm _ _
  · exact (Nat.zero_add _).symm

/-- A text that does not begin with a CRLF does not do so before what it may stand before. -/
theorem Apart.first (h : Apart (c :: s) t) (hcrlf : ∀ u, c = '\r' → s = '\n' :: u → False) :
    Apart [c] (s ++ t) := by
  intro hr
  obtain rfl : c = '\r' := Option.some.inj hr
  cases s with
  | nil => exact h rfl
  | cons d s =>
    intro hd
    obtain rfl : d = '\n' := Option.some.inj hd
    exact hcrlf s rfl rfl

theorem lineBreaks_append (h : Apart s t) :
    lineBreaks (s ++ t) = lineBreaks s + lineBreaks t := by
  fun_induction lineBreaks s with
  | case1 => simp
  | case2 s ih =>
    rw [List.cons_append, List.cons_append, lineBreaks, ih (apart_tail (apart_tail h))]
    omega
  | case3 c s hcrlf hc ih | case4 c s hcrlf hc ih =>
    rw [List.cons_append, lineBreaks_cons (h.first hcrlf), ih (apart_tail h)]
    simp only [hc, if_true, if_false]
    omega

theorem lineBreaks_eq_zero : lineBreaks s = 0 ↔ ∀ c ∈ s, c ≠ '\r' ∧ c ≠ '\n' := by
  fun_induction lineBreaks s with
  | case1 => simp
  | case2 s ih => simp
  | case3 c s hcrlf hc ih =>
    refine iff_of_false (Nat.succ_ne_zero _) fun h => ?_
    obtain ⟨hcr, hlf⟩ := h c List.mem_cons_self
    exact hc.elim hcr hlf
  | case4 c s hcrlf hc ih => simpa [not_or.mp hc] using ih

theorem lastLine_append (s t : List Char) :
    lastLine (s ++ t) = if lineBreaks t = 0 then lastLine s ++ t else lastLine t := by
  have hlength : ((t.reverse.takeWhile fun c => c ≠ '\r' ∧ c ≠ '\n').length = t.reverse.length) ↔
      lineBreaks t = 0 := by
    rw [lineBreaks_eq_zero]
    constructor
    · intro h
      have hall := (List.takeWhile_prefix (l := t.reverse)
        fun c => decide (c ≠ '\r' ∧ c ≠ '\n')).eq_of_length h ▸ List.all_takeWhile
      simpa using hall
    · intro h
      rw [← List.append_nil t.reverse, List.takeWhile_append_of_pos (by simpa using h)]
      simp
  simp only [lastLine, List.reverse_append, List.takeWhile_append, hlength]
  split
  · simp
  · rfl

theorem lastLine_of_lineBreaks (h : lineBreaks s = 0) : lastLine s = s := by
  simpa [h, lastLine] using lastLine_append [] s

def SafeCut (s : List Char) (n : Nat) : Prop :=
  Apart (s.take n) (s.drop n)

namespace SafeCut
variable {n m : Nat} {p : Char → Bool}

theorem zero (s : List Char) : SafeCut s 0 :=
  apart_nil_left s

theorem of_length_le (h : s.length ≤ n) : SafeCut s n := by
  rw [SafeCut, List.drop_of_length_le h]
  exact apart_nil_right _

theorem of_not_mem (h : '\r' ∉ s.take n) : SafeCut s n :=
  apart_of_not_mem h

theorem of_begins (h : t <+: s) (ht : '\r' ∉ t) : SafeCut s t.length := by
  obtain ⟨u, rfl⟩ := h
  exact of_not_mem (by rwa [List.take_left])

theorem succ (hc : n = 0 → c = '\r' → s.head? ≠ some '\n') (h : SafeCut s n) :
    SafeCut (c :: s) (n + 1) := by
  refine Apart.cons (fun hr he => ?_) h
  rcases List.take_eq_nil_iff.mp he with rfl | rfl
  · exact hc rfl hr
  · simp

theorem succ_of_ne (hc : c ≠ '\r') (h : SafeCut s n) : SafeCut (c :: s) (n + 1) :=
  h.succ fun _ hr => absurd hr hc

theorem succ_of_pos (hn : 0 < n) (h : SafeCut s n) : SafeCut (c :: s) (n + 1) :=
  h.succ fun h0 => absurd h0 (Nat.ne_of_gt hn)

theorem add (hm : SafeCut s m) (hn : SafeCut (s.drop m) n) : SafeCut s (m + n) := by
  induction m generalizing s with
  | zero => simpa using hn
  | succ m ih =>
    cases s with
    | nil => exact of_length_le (Nat.zero_le _)
    | cons c s =>
      rw [Nat.add_right_comm]
      refine succ (fun h0 hr => ?_) (ih (apart_tail hm) hn)
      obtain rfl : m = 0 := by omega
      exact hm (by rw [hr]; rfl)

/-- A run that takes no carriage return, or would take a line feed after one. -/
theorem run (h : p '\r' = false ∨ p '\n' = true) (s : List Char) : SafeCut s (run p s) := by
  induction s with
  | nil => exact zero []
  | cons c s ih =>
    rw [Text.run, List.takeWhile_cons]
    split
    · rename_i hc
      refine succ (fun h0 hr => ?_) ih
      subst hr
      rcases h with h | h
      · rw [h] at hc
        cases hc
      · cases s with
        | nil => simp
        | cons d s =>
          intro hd
          obtain rfl : d = '\n' := Option.some.inj hd
          simp [h] at h0
    · exact zero _

end SafeCut

theorem breakWidth_safe (s : List Char) : SafeCut s (breakWidth s) := by
  unfold breakWidth
  split
  · exact .succ_of_pos Nat.one_pos (.succ_of_ne (by decide) (.zero _))
  · rename_i s hlf
    refine .succ (fun _ _ hd => ?_) (.zero _)
    obtain ⟨t, rfl⟩ := List.head?_eq_some_iff.mp hd
    exact hlf t rfl
  · exact .succ_of_ne (by decide) (.zero _)
  · exact .zero _

/-- A quoted text ends with its quote. -/
theorem quoteTail_safe {quote : Char} (hq : quote ≠ '\r') {n : Nat}
    (h : quoteTail quote s = some n) : 0 < n ∧ SafeCut s n := by
  fun_induction quoteTail quote s generalizing n with
  | case1 => cases h
  | case2 d s ih =>
    obtain ⟨m, hm, rfl⟩ := Option.map_eq_some_iff.mp h
    obtain ⟨hpos, hsafe⟩ := ih hm
    exact ⟨by omega, .succ_of_ne (by decide) (.succ_of_pos hpos hsafe)⟩
  | case3 s _ =>
    cases h
    exact ⟨Nat.one_pos, .succ_of_ne hq (.zero s)⟩
  | case4 => cases h
  | case5 c s _ _ _ ih =>
    obtain ⟨m, hm, rfl⟩ := Option.map_eq_some_iff.mp h
    obtain ⟨hpos, hsafe⟩ := ih hm
    exact ⟨by omega, .succ_of_pos hpos hsafe⟩

end
end Text

namespace Piece
open Text

section
variable {c : Char} {cs : List Char} {n : Nat}

theorem ne_of_isIdent (h : isIdent c = true) : c ≠ '\r' := by
  rintro rfl
  simp [isIdent, beginsIdent] at h

theorem not_mem_of_isIdent {label : List Char} (h : label.all isIdent = true) : '\r' ∉ label :=
  fun hmem => ne_of_isIdent (List.all_eq_true.mp h _ hmem) rfl

theorem not_mem_beforeEnd {accepts : Char → Bool} (h : accepts '\r' = false) (cs : List Char) :
    '\r' ∉ cs.take (beforeEnd accepts cs) := by
  intro hmem
  rw [accepts_of_mem_beforeEnd hmem] at h
  cases h

theorem commentTail_pos (c : Char) (cs : List Char) : 0 < commentTail (c :: cs) := by
  unfold commentTail
  split
  · exact Nat.zero_lt_two
  · exact Nat.succ_pos _
  · contradiction

theorem commentTail_safe (cs : List Char) : SafeCut cs (commentTail cs) := by
  fun_induction commentTail cs with
  | case1 cs => exact .succ_of_ne (by decide) (.succ_of_ne (by decide) (.zero cs))
  | case2 c cs _ ih =>
    cases cs with
    | nil => exact .of_length_le (Nat.le_refl 1)
    | cons d cs => exact ih.succ_of_pos (commentTail_pos d cs)
  | case3 => exact .zero []

theorem docTail_safe {atStart : Bool} {kind : Kind} (h : docTail atStart c cs = (kind, n)) :
    SafeCut (c :: cs) (n + 1) := by
  -- what begins no line break is no carriage return
  have hne (hbreak : breakWidth (c :: cs) = 0) : c ≠ '\r' := by
    rintro rfl
    exact Nat.ne_of_gt (breakWidth_pos.mpr (.inl rfl)) hbreak
  cases docTail_cut h with
  | close rest hc hcs =>
    rw [hcs]
    exact .succ_of_pos Nat.one_pos (.succ_of_ne (by decide) (.zero rest))
  | lineBreak hbreak =>
    rw [Nat.sub_add_cancel hbreak]
    exact breakWidth_safe _
  | blank hbreak => exact .succ_of_ne (hne hbreak) (.run (.inl (by decide)) cs)
  | star hstart hc => exact .succ_of_ne (hc ▸ by decide) (.zero cs)
  | tag hc => exact .succ_of_ne (hc ▸ by decide) (.of_not_mem (not_mem_beforeEnd (by decide) cs))
  | text hbreak =>
    have hline : '\r' ∉ cs.take (beforeEnd (fun d => d != '\r' && d != '\n') cs) :=
      not_mem_beforeEnd (by decide) cs
    refine .succ_of_ne (hne hbreak) (.of_not_mem fun hmem => hline ?_)
    exact List.take_subset_take_left cs (length_docText_le cs) hmem

theorem tagTail_safe (cs : List Char) : SafeCut cs (tagTail cs) := by
  unfold tagTail
  split
  · exact .succ_of_ne (by decide) (.zero _)
  · rename_i p h q cs _
    split
    · rename_i hphp
      have hne : p ≠ '\r' ∧ h ≠ '\r' ∧ q ≠ '\r' := by
        refine ⟨?_, ?_, ?_⟩ <;> rintro rfl <;> simp at hphp
      suffices ∀ {m}, SafeCut cs m → SafeCut (p :: h :: q :: cs) (m + 3) by
        split
        · exact this (.zero _)
        · exact this (breakWidth_safe _)
        · rename_i d cs hcrlf
          split
          · refine this (.succ (fun _ hr hd => ?_) (.zero _))
            obtain ⟨t, rfl⟩ := List.head?_eq_some_iff.mp hd
            exact hcrlf t hr rfl
          · exact .zero _
      intro m hm
      exact .succ_of_ne hne.1 (.succ_of_ne hne.2.1 (.succ_of_ne hne.2.2 hm))
    · exact .zero _
  · exact .zero _

theorem beforeTag_safe (cs : List Char) : SafeCut cs (beforeTag cs) := by
  fun_induction beforeTag cs with
  | case1 => exact .zero _
  | case2 c cs _ ih =>
    refine ih.succ fun h0 _ => ?_
    cases cs with
    | nil => simp
    | cons d cs =>
      unfold beforeTag at h0
      split at h0 <;> simp_all
  | case3 => exact .zero []

theorem nameTail_safe (cs : List Char) : SafeCut cs (nameTail cs) := by
  fun_induction nameTail cs with
  | case1 => exact .zero []
  | case2 c cs hc ih =>
    exact .succ_of_ne (by decide) (.succ_of_ne (ne_of_isIdent (isIdent_of_beginsIdent hc)) ih)
  | case3 | case5 => exact .zero _
  | case4 c cs _ hc ih => exact .succ_of_ne (ne_of_isIdent hc) ih

theorem exponentTail_safe (cs : List Char) : SafeCut cs (exponentTail cs) := by
  unfold exponentTail
  split
  · rename_i e cs
    split
    · rename_i he
      have hne : e ≠ '\r' := by
        rintro rfl
        simp at he
      extract_lets sign digits
      have hsign : SafeCut cs sign := by
        unfold sign
        split
        · split
          · exact .succ_of_ne (by grind) (.zero _)
          · exact .zero _
        · exact .zero _
      split
      · exact .zero _
      · rw [Nat.add_assoc, Nat.add_comm 1]
        exact .succ_of_ne hne (hsign.add (.run (.inl (by decide)) _))
    · exact .zero _
  · exact .zero _

theorem numberTail_safe (c : Char) (cs : List Char) : SafeCut cs (numberTail c cs).2 := by
  have hwhole : SafeCut cs (run isDigits cs) := .run (.inl (by decide)) cs
  unfold numberTail
  simp only
  split
  · rename_i fraction hdot
    refine .add ?_ (exponentTail_safe _)
    rw [Nat.add_assoc, Nat.add_comm 1]
    exact hwhole.add (hdot ▸ .succ_of_ne (by decide) (.run (.inl (by decide)) fraction))
  · split
    · exact hwhole.add (exponentTail_safe _)
    · split
      · rename_i x digits _ _
        split
        · rename_i hx
          rw [Nat.add_comm 1]
          exact .succ_of_ne (by grind) (.run (.inl (by decide)) digits)
        · split
          · rename_i hx
            rw [Nat.add_comm 1]
            exact .succ_of_ne (by grind) (.run (.inl (by decide)) digits)
          · exact hwhole
      · exact hwhole

theorem fractionTail_safe (h : fractionTail cs = some n) : SafeCut cs n := by
  unfold fractionTail at h
  split at h
  · rename_i d digits
    split at h <;> cases h
    rename_i hd
    have hdigits : SafeCut (d :: digits) (1 + run isDigits digits) := by
      rw [Nat.add_comm 1]
      exact .succ_of_ne (by rintro rfl; simp at hd) (.run (.inl (by decide)) digits)
    exact hdigits.add (exponentTail_safe _)
  · cases h

theorem closingLabel_safe {label : List Char} (hword : label.all isIdent = true)
    (hne : label ≠ []) (h : closingLabel label cs = some n) : 0 < n ∧ SafeCut cs n := by
  unfold closingLabel at h
  simp only at h
  split at h <;> cases h
  rename_i hstands
  have hlabel := List.isPrefixOf_iff_prefix.mp (Bool.and_eq_true_iff.mp hstands).1
  refine ⟨Nat.add_pos_right _ (List.length_pos_iff.mpr hne), ?_⟩
  exact SafeCut.add (.run (.inl (by decide)) cs) (.of_begins hlabel (not_mem_of_isIdent hword))

theorem heredocBody_safe {label : List Char} {atStart : Bool} (hlabel : label.all isIdent = true)
    (hne : label ≠ []) (h : heredocBody label atStart cs = some n) : 0 < n ∧ SafeCut cs n := by
  fun_induction heredocBody label atStart cs generalizing n with
  | case1 atStart cs m hend =>
    cases h
    split at hend
    · exact closingLabel_safe hlabel hne hend
    · cases hend
  | case2 => cases h
  | case3 atStart _ c cs ih =>
    obtain ⟨m, hm, rfl⟩ := Option.map_eq_some_iff.mp h
    obtain ⟨hpos, hsafe⟩ := ih hm
    exact ⟨Nat.succ_pos m, .succ_of_pos hpos hsafe⟩

theorem heredocTail_safe (h : heredocTail cs = some n) : SafeCut cs n := by
  unfold heredocTail at h
  extract_lets indent opened quote named label ended body width at h
  split at h
  · cases h
  · rename_i hstands
    obtain ⟨m, hm, rfl⟩ := Option.map_eq_some_iff.mp h
    obtain ⟨⟨hlabel, hended⟩, -⟩ : (label ≠ [] ∧ quote <+: ended) ∧ width ≠ 0 := by
      simpa [List.isPrefixOf_iff_prefix] using hstands
    have hquote : quote <+: opened ∧ '\r' ∉ quote := by
      unfold quote
      clear_value opened
      cases opened with
      | nil => simp
      | cons q rest =>
        simp only
        split
        · refine ⟨List.cons_prefix_cons.mpr ⟨rfl, List.nil_prefix⟩, ?_⟩
          grind
        · simp
    have hword : label <+: named ∧ label.all isIdent = true := by
      unfold label
      clear_value named
      cases named with
      | nil => simp
      | cons c rest =>
        simp only
        split
        · rename_i hc
          exact ⟨List.cons_prefix_cons.mpr ⟨rfl, List.takeWhile_prefix _⟩, by simp [isIdent, hc]⟩
        · simp
    -- one cut after another: indentation, quote, label, quote, line break and body
    have hopened : SafeCut cs indent := .run (.inl (by decide)) cs
    have hrest : SafeCut body (width + m) :=
      (breakWidth_safe body).add (heredocBody_safe hword.2 hlabel hm).2
    have hclosed : SafeCut ended (quote.length + (width + m)) :=
      (SafeCut.of_begins hended hquote.2).add hrest
    have hnamed : SafeCut named (label.length + (quote.length + (width + m))) :=
      (SafeCut.of_begins hword.1 (not_mem_of_isIdent hword.2)).add hclosed
    have hall := hopened.add ((SafeCut.of_begins hquote.1 hquote.2).add hnamed)
    simpa only [Nat.add_assoc] using hall

theorem signTail_safe (hc : c ≠ '\r') (cs : List Char) : SafeCut (c :: cs) (signTail c cs + 1) := by
  unfold signTail
  split
  · rename_i s hs
    have hsign : ∀ s ∈ longSigns, '\r' ∉ s.toList ∧ s.length ≠ 0 := by decide
    have hstands : s.toList.isPrefixOf (c :: cs) = true := by simpa using List.find?_some hs
    obtain ⟨hplain, hlength⟩ := hsign s (List.mem_of_find?_eq_some hs)
    rw [Nat.sub_add_cancel (Nat.one_le_iff_ne_zero.mpr hlength), ← String.length_toList]
    exact .of_begins (List.isPrefixOf_iff_prefix.mp hstands) hplain
  · exact .succ_of_ne hc (.zero cs)

theorem shapeTail_safe {shape : Shape} (h : shapeTail c cs = (shape, n)) :
    SafeCut (c :: cs) (n + 1) := by
  have hident {d : Char} (hd : beginsIdent d = true) : d ≠ '\r' :=
    ne_of_isIdent (isIdent_of_beginsIdent hd)
  cases shapeTail_cut h with
  | closeTag rest =>
    rw [Nat.add_comm 1]
    exact .succ_of_ne (by decide) (.succ_of_ne (by decide) (breakWidth_safe rest))
  | blank hc => simpa [run, hc] using SafeCut.run (p := isBlank) (.inr (by decide)) (c :: cs)
  | emptyComment rest => exact .of_not_mem (by simp)
  | docComment rest =>
    rw [Nat.add_comm 2]
    exact .succ_of_ne (by decide) (.succ_of_ne (by decide) (.succ_of_ne (by decide)
      (commentTail_safe rest)))
  | comment rest =>
    rw [Nat.add_comm 1]
    exact .succ_of_ne (by decide) (.succ_of_ne (by decide) (commentTail_safe rest))
  | lineComment hc =>
    refine .succ_of_ne ?_ (.run (.inl (by decide)) cs)
    rcases hc with rfl | rfl <;> decide
  | variableName rest hd =>
    rw [Nat.add_comm 1]
    exact .succ_of_ne (by decide) (.succ_of_ne (hident hd) (.run (.inl (by decide)) rest))
  | heredoc hm =>
    rw [Nat.add_comm 2]
    exact .succ_of_ne (by decide) (.succ_of_ne (by decide) (.succ_of_ne (by decide)
      (heredocTail_safe hm)))
  | fraction hm => exact .succ_of_ne (by decide) (fractionTail_safe hm)
  | quoted hc hm =>
    have hne : c ≠ '\r' := by
      rintro rfl
      simp at hc
    exact .succ_of_ne hne (quoteTail_safe hne hm).2
  | number hc =>
    refine .succ_of_ne ?_ (numberTail_safe c cs)
    rintro rfl
    simp at hc
  | name hc => exact .succ_of_ne (hident hc) (nameTail_safe cs)
  | absoluteName rest hd =>
    rw [Nat.add_comm 1]
    exact .succ_of_ne (by decide) (.succ_of_ne (hident hd) (nameTail_safe rest))
  | sign hc =>
    refine signTail_safe ?_ cs
    rintro rfl
    cases hc

end

def joined (ps : List Piece) : List Char :=
  ps.flatMap (·.text)

def Lined : List Piece → Prop
  | [] => True
  | p :: ps => Text.Apart p.text (joined ps) ∧ Lined ps

theorem Lined.append {ps qs : List Piece} (hp : Lined ps) (hq : Lined qs)
    (h : Text.Apart (joined ps) (joined qs)) : Lined (ps ++ qs) := by
  induction ps with
  | nil => exact hq
  | cons p ps ih => exact ⟨by simpa [joined] using hp.1.append h, ih hp.2 h.right⟩

theorem Lined.drop {ps : List Piece} (h : Lined ps) (n : Nat) : Lined (ps.drop n) := by
  induction n generalizing ps with
  | zero => exact h
  | succ n ih =>
    cases ps with
    | nil => exact h
    | cons p ps => exact ih h.2

theorem Lined.take {ps : List Piece} (h : Lined ps) (n : Nat) : Lined (ps.take n) := by
  induction n generalizing ps with
  | zero => trivial
  | succ n ih =>
    cases ps with
    | nil => trivial
    | cons p ps =>
      refine ⟨?_, ih h.2⟩
      refine Text.Apart.of_append (u := joined (ps.drop n)) ?_
      rw [joined, joined, ← List.flatMap_append, List.take_append_drop]
      exact h.1

theorem Lined.apart {ps : List Piece} (h : Lined ps) (n : Nat) :
    Text.Apart (joined (ps.take n)) (joined (ps.drop n)) := by
  induction n generalizing ps with
  | zero => exact Text.apart_nil_left _
  | succ n ih =>
    cases ps with
    | nil => exact Text.apart_nil_left _
    | cons p ps =>
      have hrest : joined (ps.take n) ++ joined (ps.drop n) = joined ps := by
        rw [joined, joined, ← List.flatMap_append, List.take_append_drop, joined]
      exact Text.Apart.append_left (hrest ▸ h.1) (ih h.2)

/-- A piece cut off safely parts no CRLF from the pieces of the rest. -/
theorem Lined.cons {ps : List Piece} {c : Char} {cs : List Char} {n : Nat} (kind : Kind)
    (h : Text.SafeCut (c :: cs) (n + 1)) (hcover : Cover ps (cs.drop n)) (hps : Lined ps) :
    Lined (⟨kind, c :: cs.take n⟩ :: ps) := by
  refine ⟨?_, hps⟩
  rw [joined, hcover.joined]
  exact h

theorem docParts_lined {atStart : Bool} {cs : List Char} (h : commentTail cs = cs.length) :
    Lined (docParts atStart cs) := by
  fun_induction docParts atStart cs with
  | case1 => trivial
  | case2 atStart c cs kind n hd next ih =>
    split
    · exact ⟨Text.apart_nil_right _, trivial⟩
    · have hrest := commentTail_drop h (n + 1)
      exact .cons kind (docTail_safe hd) (docParts_cover next hrest) (ih hrest)

theorem ofShape_lined {c : Char} {cs : List Char} {shape : Shape} {n : Nat}
    (h : shapeTail c cs = (shape, n)) : Lined (ofShape shape (c :: cs.take n)) := by
  cases shape with
  | plain | name | sign => exact ⟨Text.apart_nil_right _, trivial⟩
  | docComment =>
    obtain ⟨rest, rfl, rfl, rfl⟩ := shapeTail_docComment h
    rw [Nat.add_comm 2]
    exact ⟨Text.apart_of_not_mem (by simp), docParts_lined (commentTail_take rest)⟩

theorem cut_lined (php : Bool) (cs : List Char) : Lined (cut php cs) := by
  fun_induction cut php cs with
  | case1 => trivial
  | case2 c cs shape n h ih =>
    refine (ofShape_lined h).append ih ?_
    rw [joined, joined, (ofShape_cover h).joined, (cut_cover _ _).joined]
    exact shapeTail_safe h
  | case3 php c cs _ h0 n ih =>
    have htag : ∃ rest, c :: cs = '<' :: '?' :: rest := by
      unfold beforeTag at h0
      split at h0
      · exact ⟨_, ‹_›⟩
      · cases h0
      · contradiction
    obtain ⟨rest, hrest⟩ := htag
    cases hrest
    refine .cons _ ?_ (cut_cover _ _) ih
    rw [show n = tagTail rest + 1 from Nat.add_comm _ _]
    exact .succ_of_ne (by decide) (.succ_of_ne (by decide) (tagTail_safe rest))
  | case4 php c cs _ n hn ih =>
    have hsafe := beforeTag_safe (c :: cs)
    rw [hn] at hsafe
    exact .cons _ hsafe (cut_cover _ _) ih

theorem Place.after_append (p : Place) {s t : List Char} (h : Text.Apart s t) :
    p.after (s ++ t) = (p.after s).after t := by
  have hbreaks := Text.lineBreaks_append h
  have hlast := Text.lastLine_append s t
  unfold Place.after
  cases ht : Text.lineBreaks t with
  | zero =>
    rw [ht, Nat.add_zero] at hbreaks
    rw [if_pos ht] at hlast
    rw [hbreaks, hlast]
    cases Text.lineBreaks s with
    | zero => simp [Nat.add_assoc]
    | succ n => simp [Nat.add_assoc, Nat.add_comm 1]
  | succ m =>
    rw [if_neg (by omega)] at hlast
    rw [hbreaks, hlast, ht]
    cases Text.lineBreaks s with
    | zero => simp
    | succ n => simp [Nat.add_assoc, Nat.add_comm 1]

/-- The place after a text, from the start of a file on. -/
theorem Place.after_start (s : List Char) :
    ({} : Place).after s = ⟨1 + Text.lineBreaks s, 1 + (Text.lastLine s).length⟩ := by
  unfold Place.after
  cases h : Text.lineBreaks s with
  | zero => simp [Text.lastLine_of_lineBreaks h]
  | succ n => simp [Nat.add_comm 1]

theorem lined_congr {ps qs : List Piece} (h : ps.map (·.text) = qs.map (·.text)) (hq : Lined qs) :
    Lined ps := by
  induction ps generalizing qs with
  | nil => trivial
  | cons p ps ih =>
    cases qs with
    | nil => cases h
    | cons q qs =>
      obtain ⟨hp, hps⟩ : p.text = q.text ∧ ps.map (·.text) = qs.map (·.text) := List.cons.inj h
      have hjoined : joined ps = joined qs := by
        rw [joined, joined, List.flatMap_def, List.flatMap_def, hps]
      refine ⟨?_, ih hps hq.2⟩
      rw [hp, hjoined]
      exact hq.1

/-- Each token stands where the text of the pieces before it leads to. -/
theorem toTokens_place {p : Place} {ps : List Piece} (h : Lined ps) {i : Nat} {t : Token}
    (ht : (toTokens p ps)[i]? = some t) :
    (⟨t.line, t.column⟩ : Place) = p.after (joined (ps.take i)) := by
  induction ps generalizing p i with
  | nil => cases ht
  | cons q qs ih =>
    cases i with
    | zero =>
      cases ht
      rfl
    | succ i =>
      rw [ih h.2 ht, ← Place.after_append p (h.take (i + 1)).1]
      rfl

end Piece

namespace Tokens

/-- What neither the group nor the extents of a token change is that of its piece. -/
theorem map_tokenize {α : Type} (source : String) (g : Token → α)
    (hgroup : ∀ t group, g { t with group } = g t)
    (hend : ∀ t commentEnd, g { t with commentEnd } = g t)
    (hmarks : ∀ t parameters body, g { t with parameters, body } = g t) :
    (tokenize source).toList.map g =
      (Piece.toTokens {} (Piece.assign none (Piece.cut false source.toList))).map g := by
  rw [tokenize, withExtents, map_mapIdx, withGroups, map_mapIdx]
  · exact fun _ _ => hgroup _ _
  · intro i t
    split
    · exact hend _ _
    · obtain ⟨_, _, h⟩ := declare_eq _ i t
      rw [h]
      exact hmarks _ _ _

end Tokens

/-- The text before a token is that of the pieces before it. -/
theorem source_take_tokenize (source : String) (i : Nat) :
    (Tokens.source ((tokenize source).take i)).toList =
      Piece.joined ((Piece.assign none (Piece.cut false source.toList)).take i) := by
  rw [Tokens.source, Array.take_eq_extract, Array.toList_extract, List.extract_eq_take_drop,
    List.drop_zero, Nat.sub_zero, List.map_take, tokenize_text, ← List.map_take,
    String.toList_join, List.flatMap_map, Piece.joined, List.flatMap_def, List.flatMap_def,
    List.map_take, List.map_take, Piece.assign_text]
  simp

/-- A token stands where the text before it leads to. -/
theorem Tokens.place_eq {source : String} {i : Nat} {t : Token} (h : (tokenize source)[i]? = some t) :
    t.line = 1 + Text.lineBreaks (Tokens.source ((tokenize source).take i)).toList ∧
      t.column = 1 + (Text.lastLine (Tokens.source ((tokenize source).take i)).toList).length := by
  have hlined : Piece.Lined (Piece.assign none (Piece.cut false source.toList)) :=
    Piece.lined_congr (Piece.assign_text _ _) (Piece.cut_lined _ _)
  have hplaces := Tokens.map_tokenize source (fun t => (t.line, t.column))
    (fun _ _ => rfl) (fun _ _ => rfl) (fun _ _ _ => rfl)
  obtain ⟨u, hu, hplace⟩ : ∃ u, (Piece.toTokens {} _)[i]? = some u ∧
      (u.line, u.column) = (t.line, t.column) := by
    have hi := congrArg (·[i]?) hplaces
    rw [List.getElem?_map, List.getElem?_map, Array.getElem?_toList, h, Option.map_some, eq_comm,
      Option.map_eq_some_iff] at hi
    exact hi
  obtain ⟨hline, hcolumn⟩ := Prod.mk.inj hplace
  have hafter := Piece.toTokens_place hlined hu
  rw [Piece.Place.after_start, ← source_take_tokenize, hline, hcolumn] at hafter
  exact Piece.Place.mk.inj hafter

/-- A token stands on the line after as many line breaks as there are before it, and in the column
after as many characters as follow the last of them. -/
theorem tokenize_place (source : String) (i : Fin (tokenize source).size) :
    let before := (Tokens.source ((tokenize source).take i)).toList
    (tokenize source)[i].line = 1 + Text.lineBreaks before ∧
      (tokenize source)[i].column = 1 + (Text.lastLine before).length := by
  intro before
  exact Tokens.place_eq (Array.getElem?_eq_getElem i.isLt)

end PhpDoc
