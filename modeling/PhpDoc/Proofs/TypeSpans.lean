import PhpDoc.Proofs.RestyledTags
/-!
The stretch of a tag that a type takes up. It begins and ends within lines, and in its recommended
spelling it cannot end a comment that it did not end before.
-/
namespace PhpDoc

namespace Text

structure Milder (xs ys : List Char) : Prop where
  closes : ['*', '/'] <:+: ys → ['*', '/'] <:+: xs
  slash : ys.head? = some '/' → xs.head? = some '/'
  star : ys.getLast? = some '*' → xs.getLast? = some '*'
  nil_iff : ys = [] ↔ xs = []

/-- The end of a comment in a joined text is in one of the parts or where they meet. -/
theorem closes_append {xs ys : List Char} : ['*', '/'] <:+: xs ++ ys ↔
    ['*', '/'] <:+: xs ∨ ['*', '/'] <:+: ys ∨ xs.getLast? = some '*' ∧ ys.head? = some '/' := by
  have hpair : ∀ (c : Char) (cs : List Char),
      ['*', '/'] <+: c :: cs ↔ c = '*' ∧ cs.head? = some '/' := by
    intro c cs
    cases cs <;> simp [eq_comm]
  induction xs with
  | nil => simp
  | cons x xs ih =>
    rw [List.cons_append, List.infix_cons_iff, List.infix_cons_iff, hpair, hpair]
    simp only [ih]
    cases xs with
    | nil => simpa using or_comm
    | cons y xs =>
      rw [List.getLast?_cons_cons, List.cons_append, List.head?_cons, List.head?_cons, or_assoc]

namespace Milder
variable {xs ys xs' ys' : List Char}

theorem refl (xs : List Char) : Milder xs xs :=
  ⟨id, id, id, Iff.rfl⟩

theorem append (h : Milder xs ys) (h' : Milder xs' ys') : Milder (xs ++ xs') (ys ++ ys') where
  closes := by
    simp only [closes_append]
    rintro (hc | hc | ⟨hstar, hslash⟩)
    · exact .inl (h.closes hc)
    · exact .inr (.inl (h'.closes hc))
    · exact .inr (.inr ⟨h.star hstar, h'.slash hslash⟩)
  slash hhead := by
    by_cases hnil : ys = []
    · rw [hnil] at hhead
      rw [h.nil_iff.mp hnil]
      exact h'.slash hhead
    · rw [List.head?_append_of_ne_nil _ hnil] at hhead
      rw [List.head?_append_of_ne_nil _ (mt h.nil_iff.mpr hnil)]
      exact h.slash hhead
  star hlast := by
    by_cases hnil : ys' = []
    · rw [hnil, List.append_nil] at hlast
      rw [h'.nil_iff.mp hnil, List.append_nil]
      exact h.star hlast
    · rw [List.getLast?_append_of_ne_nil _ hnil] at hlast
      rw [List.getLast?_append_of_ne_nil _ (mt h'.nil_iff.mpr hnil)]
      exact h'.star hlast
  nil_iff := by rw [List.append_eq_nil_iff, List.append_eq_nil_iff, h.nil_iff, h'.nil_iff]

/-- A text without stars and slashes may stand anywhere. -/
theorem of_not_mem (hstar : '*' ∉ ys) (hslash : '/' ∉ ys) (hys : ys ≠ []) (hxs : xs ≠ []) :
    Milder xs ys where
  closes h := absurd (h.subset List.mem_cons_self) hstar
  slash h := absurd (List.mem_of_mem_head? h) hslash
  star h := absurd (List.mem_of_getLast? h) hstar
  nil_iff := iff_of_false hys hxs

end Milder
end Text

namespace Lexing
variable {c : Char} {cs ds rest tail gap text : List Char} {k : LexemeKind} {n m i : Nat}
  {sp sp' : Bool} {ls : List Lexeme}

theorem milder_collapse (gap : List Char) : Text.Milder gap (collapse gap) := by
  unfold collapse
  split
  · rename_i hbreak
    refine .of_not_mem (by decide) (by decide) (by decide) ?_
    rintro rfl
    simp at hbreak
  · exact .refl gap

theorem milder_respell (words : List Nat) (l : Lexeme) :
    Text.Milder l.text.toList (TypedTag.respell words l).toList := by
  have hwords : ∀ r ∈ Words.recommended, '*' ∉ r.2.toList ∧ '/' ∉ r.2.toList ∧ r.2.toList ≠ [] ∧
      r.1.toList ≠ [] := by decide
  obtain he | hm := TypedTag.respell_cases words l
  · rw [he]
    exact .refl _
  · obtain ⟨hstar, hslash, hnew, hold⟩ := hwords _ hm
    exact .of_not_mem hstar hslash hnew hold

theorem isWhiteSpace_of_isWord {d : Char} (hd : isWord d = true) : Text.isWhiteSpace d = false :=
  isWhiteSpace_of_continuesName (by simp [continuesName, hd])

theorem isWhiteSpace_of_isDigits {d : Char} (hd : isDigits d = true) :
    Text.isWhiteSpace d = false := by
  refine isWhiteSpace_of_isWord ?_
  by_contra hw
  simp [(isDigits_of_not_isWord (by simpa using hw)).1] at hd

theorem isWhiteSpace_of_mem_numberTail {d : Char} (hd : d ∈ cs.take (numberTail cs)) :
    Text.isWhiteSpace d = false := by
  unfold numberTail at hd
  simp only at hd
  split at hd
  · rename_i fraction hfraction
    rw [Nat.add_assoc, List.take_add, hfraction, Nat.add_comm 1, List.take_succ_cons] at hd
    rcases List.mem_append.mp hd with hd | hd
    · exact isWhiteSpace_of_isDigits (Text.mem_take_run hd)
    · rcases List.mem_cons.mp hd with rfl | hd
      · decide
      · exact isWhiteSpace_of_isDigits (Text.mem_take_run hd)
  · exact isWhiteSpace_of_isDigits (Text.mem_take_run hd)

theorem isWhiteSpace_of_mem_signTail {d : Char} (hd : d ∈ cs.take (signTail c cs).2) :
    Text.isWhiteSpace d = false := by
  unfold signTail at hd
  split at hd
  · rename_i e rest
    split at hd
    · rename_i he
      rw [Nat.add_comm, List.take_succ_cons] at hd
      rcases List.mem_cons.mp hd with rfl | hd
      · exact isWhiteSpace_of_isDigits (by simp [isDigits, he])
      · exact isWhiteSpace_of_mem_numberTail hd
    · cases hd
  · obtain rfl : d = '.' := by simpa using hd
    decide
  · obtain rfl : d = ':' := by simpa using hd
    decide
  · cases hd

theorem getLast?_quoteTail {q : Char} (h : Text.quoteTail q cs = some i) :
    (cs.take i).getLast? = some q := by
  fun_induction Text.quoteTail q cs generalizing i with
  | case1 => cases h
  | case2 d cs ih =>
    obtain ⟨j, hj, rfl⟩ := Option.map_eq_some_iff.mp h
    rw [List.take_succ_cons, List.take_succ_cons, List.getLast?_cons, List.getLast?_cons, ih hj]
    rfl
  | case3 cs =>
    cases h
    rfl
  | case4 => cases h
  | case5 c cs _ _ _ ih =>
    obtain ⟨j, hj, rfl⟩ := Option.map_eq_some_iff.mp h
    rw [List.take_succ_cons, List.getLast?_cons, ih hj]
    rfl

/-- A lexeme holds no white space, or it is quoted and ends with the quote that it begins with. -/
theorem lexeme_cases (hc : Text.isWhiteSpace c = false) (h : lexemeTail c cs = some (k, i)) :
    (k = .quoted ∧ (cs.take i).getLast? = some c) ∨
      ∀ d ∈ c :: cs.take i, Text.isWhiteSpace d = false := by
  cases lexemeTail_cut h with
  | quoted _ hm => exact .inl ⟨rfl, getLast?_quoteTail hm⟩
  | variableName =>
    exact .inr (List.forall_mem_cons.mpr ⟨hc, fun d hd =>
      isWhiteSpace_of_isWord (Text.mem_take_run hd)⟩)
  | name =>
    exact .inr (List.forall_mem_cons.mpr ⟨hc, fun d hd =>
      isWhiteSpace_of_continuesName (Text.mem_take_run hd)⟩)
  | number =>
    exact .inr (List.forall_mem_cons.mpr ⟨hc, fun d => isWhiteSpace_of_mem_numberTail⟩)
  | sign => exact .inr (List.forall_mem_cons.mpr ⟨hc, fun d => isWhiteSpace_of_mem_signTail⟩)

/-- No lexeme ends with a line feed. -/
theorem getLast?_lexeme (hc : Text.isWhiteSpace c = false) (h : lexemeTail c cs = some (k, i)) :
    (c :: cs.take i).getLast? ≠ some '\n' := by
  obtain ⟨-, hlast⟩ | hall := lexeme_cases hc h
  · rw [List.getLast?_cons, hlast]
    rintro ⟨⟩
    cases hc
  · intro hlast
    have hwhite := hall _ (List.mem_of_getLast? hlast)
    cases hwhite

theorem getLast?_lexeme_append {front : List Char} (hc : Text.isWhiteSpace c = false)
    (hk : lexemeTail c (tail ++ rest) = some (k, tail.length)) (h : front.getLast? ≠ some '\n') :
    (c :: tail ++ front).getLast? ≠ some '\n' := by
  have hlexeme := getLast?_lexeme hc hk
  rw [List.take_left] at hlexeme
  by_cases hnil : front = []
  · rw [hnil, List.append_nil]
    exact hlexeme
  · rw [List.getLast?_append_of_ne_nil _ hnil]
    exact h

/-- The text of some lexemes: without it the rest is left, it does not end with a line feed, and
respelled it is milder. -/
theorem Lexed.exists_front (words : List Nat) (h : Lexed n sp cs ls m sp' ds)
    (ht : text.drop n = cs) :
    ∃ front, cs = front ++ ds ∧ m = n + front.length ∧ front.getLast? ≠ some '\n' ∧
      Text.Milder front (TypedTag.spellAfter text words n ls) := by
  induction h with
  | nil => exact ⟨[], rfl, rfl, by simp, .refl []⟩
  | @cons n m sp sp' gap tail rest ds c k ls hgap hc hk hl ih =>
    obtain ⟨front, hrest, hm, hlast, hmild⟩ := ih (drop_of_cons ht)
    have hword := milder_respell words
      ⟨k, n + gap.length, String.ofList (c :: tail), sp || !gap.isEmpty⟩
    rw [String.toList_ofList] at hword
    refine ⟨gap ++ (c :: tail) ++ front, ?_, ?_, ?_, ?_⟩
    · rw [hrest]
      simp
    · simp only [List.length_append, List.length_cons]
      omega
    · rw [List.append_assoc, List.getLast?_append_of_ne_nil _ (by simp)]
      exact getLast?_lexeme_append hc hk hlast
    · rw [TypedTag.spellAfter, gap_eq_collapse ht, stop_eq]
      exact ((milder_collapse gap).append hword).append hmild

end Lexing

namespace TypedTag.Form
open Lexing
variable {c : Context} {text spelled : String} {f : Form} {span : Nat × Nat}

/-- The type of a tag is read from lexemes of its text. -/
theorem isSuffix_start {s : Reader} (hs : f.start text = some s) : s.rest <:+ (lex text).lexemes := by
  cases f with
  | typed e =>
    cases hs
    exact List.suffix_rfl
  | template =>
    simp only [start] at hs
    split at hs
    · next hb =>
      cases hs
      obtain ⟨front, hfront, -⟩ := readTemplateName_bound hb
      exact ⟨front, hfront.symm⟩
    · cases hs

/-- The type of a tag that has a recommended spelling is read from it. -/
theorem exists_reading (hspelled : (f.read c text).spelled = some spelled) :
    ∃ n sp reading after,
      readType c text.toList f.extent ⟨(lexFrom n sp (text.toList.drop n)).lexemes, []⟩ =
        .ok (reading, after) ∧ reading.spelled = spelled ∧
      (f.read c text).span = some reading.span ∧
      (lexFrom n sp (text.toList.drop n)).lexemes <:+ (lex text).lexemes := by
  cases hs : f.start text with
  | none =>
    rw [spelled_of_none hs] at hspelled
    cases hspelled
  | some s =>
    cases hread : readType c text.toList f.extent s with
    | error e =>
      rw [(none_of_error hs hread).1] at hspelled
      cases hspelled
    | ok p =>
      obtain ⟨reading, after⟩ := p
      have hsuffix := isSuffix_start hs
      obtain ⟨n, sp, rfl, hstop, -⟩ := start_eq hs
      obtain ⟨first, others, m, sp', ds, place, m', hR⟩ := exists_respelled hread
      have hahead := hR.ahead_before
      rw [← hstop] at hahead
      have hbefore := read_eq_completed hs hread hahead
      rw [hbefore, spelled_completed] at hspelled
      have hspan : (f.read c text).span = some reading.span := by rw [hbefore, span_completed]
      exact ⟨n, sp, reading, after, hread, Option.some.inj hspelled, hspan, hsuffix⟩

/-- A type is a stretch of its tag that begins and ends within lines, and its recommended spelling
is milder. -/
theorem exists_stretch (hspelled : (f.read c text).spelled = some spelled)
    (hspan : (f.read c text).span = some span) : ∃ before written after,
      text.toList = before ++ written ++ after ∧
      span = (before.length, before.length + written.length) ∧
      written.head? ≠ some '\n' ∧ written.getLast? ≠ some '\n' ∧ written ≠ [] ∧
      Text.Milder written spelled.toList := by
  obtain ⟨n, sp, reading, after, hread, rfl, hread', -⟩ := exists_reading hspelled
  obtain rfl : reading.span = span := Option.some.inj (hread'.symm.trans hspan)
  obtain ⟨first, others, m, sp', ds, hl, hspell, hplace, -⟩ := exists_lexed_of_readType hread
  generalize hcs : text.toList.drop n = cs at hl
  cases hl with
  | @cons _ _ _ _ gap tail rest _ ch k _ hgap hc hk hl =>
    obtain ⟨front, hrest, hm, hlast, hmild⟩ := hl.exists_front after.words (drop_of_cons hcs)
    have hword := milder_respell after.words
      ⟨k, n + gap.length, String.ofList (ch :: tail), sp || !gap.isEmpty⟩
    rw [String.toList_ofList] at hword
    have hn : (text.toList.take n).length = n := by
      refine List.length_take_of_le ?_
      have hlen := congrArg List.length hcs
      simp only [List.length_drop, List.length_append, List.length_cons] at hlen
      omega
    refine ⟨text.toList.take n ++ gap, ch :: tail ++ front, ds, ?_, ?_, ?_,
      getLast?_lexeme_append hc hk hlast, by simp, ?_⟩
    · have hsplit := List.take_append_drop n text.toList
      rw [hcs, hrest] at hsplit
      refine hsplit.symm.trans ?_
      simp
    · rw [hplace, hm, List.length_append, hn, List.length_append, List.length_cons]
      refine Prod.ext rfl ?_
      simp only
      omega
    · rintro ⟨⟩
      cases hc
    · rw [hspell, spell, String.toList_ofList, stop_eq]
      exact hword.append hmild

end TypedTag.Form
end PhpDoc
