import PhpDoc.Proofs.Places
/-!
How far the cuts look ahead. A stretch of code is cut off in the same way from every text that agrees
with its own text and a few characters more, unless it is a literal without an end.
-/
namespace PhpDoc
namespace Text

def Agree (n : Nat) (xs ys : List Char) : Prop :=
  xs.take n = ys.take n

namespace Agree
variable {n m : Nat} {c : Char} {xs ys zs : List Char}

theorem refl (n : Nat) (xs : List Char) : Agree n xs xs :=
  rfl

theorem symm (h : Agree n xs ys) : Agree n ys xs :=
  Eq.symm h

theorem mono (h : Agree n xs ys) (hm : m ≤ n) : Agree m xs ys := by
  have htake := congrArg (List.take m) h
  rwa [List.take_take, List.take_take, Nat.min_eq_left hm] at htake

theorem cons (h : Agree n xs ys) : Agree (n + 1) (c :: xs) (c :: ys) := by
  rw [Agree, List.take_succ_cons, List.take_succ_cons, h]

theorem drop (h : Agree (m + n) xs ys) : Agree n (xs.drop m) (ys.drop m) := by
  rw [Agree, List.take_drop, List.take_drop, h]

theorem append (h : Agree n xs ys) (zs : List Char) : Agree (zs.length + n) (zs ++ xs) (zs ++ ys) := by
  rw [Agree, List.take_length_add_append, List.take_length_add_append, h]

theorem head? (h : Agree (n + 1) xs ys) : xs.head? = ys.head? := by
  have hhead := congrArg List.head? (h.mono (Nat.succ_le_succ (Nat.zero_le n)))
  rwa [List.head?_take, List.head?_take, if_neg Nat.one_ne_zero] at hhead

theorem exists_cons (h : Agree (n + 1) (c :: xs) zs) : ∃ ys, zs = c :: ys ∧ Agree n xs ys := by
  cases zs with
  | nil => cases h
  | cons d ys =>
    obtain ⟨rfl, htail⟩ := List.cons.inj h
    exact ⟨ys, rfl, htail⟩

theorem eq_nil (h : Agree (n + 1) [] ys) : ys = [] := by
  cases ys with
  | nil => rfl
  | cons d ys => cases h

end Agree

section
variable {c q : Char} {cs ds : List Char} {p : Char → Bool} {n : Nat}

theorem takeWhile_agree (h : Agree (run p cs + 1) cs ds) : ds.takeWhile p = cs.takeWhile p := by
  induction cs generalizing ds with
  | nil => rw [h.eq_nil]
  | cons c cs ih =>
    obtain ⟨ds, rfl, hds⟩ := h.exists_cons
    by_cases hc : p c = true
    · have hrun : run p (c :: cs) = run p cs + 1 := by simp [run, hc]
      rw [hrun] at hds
      rw [List.takeWhile_cons_of_pos hc, List.takeWhile_cons_of_pos hc, ih hds]
    · rw [List.takeWhile_cons_of_neg hc, List.takeWhile_cons_of_neg hc]

theorem run_agree (h : Agree (run p cs + 1) cs ds) : run p ds = run p cs := by
  rw [run, takeWhile_agree h, run]

theorem breakWidth_return (cs : List Char) :
    breakWidth ('\r' :: cs) = if cs.head? = some '\n' then 2 else 1 := by
  cases cs with
  | nil => rfl
  | cons d cs => by_cases hd : d = '\n' <;> simp [breakWidth, hd]

theorem breakWidth_other (hc : c ≠ '\r') (cs : List Char) :
    breakWidth (c :: cs) = if c = '\n' then 1 else 0 := by
  unfold breakWidth
  split <;> simp_all

theorem breakWidth_agree (h : Agree 2 cs ds) : breakWidth ds = breakWidth cs := by
  cases cs with
  | nil => rw [h.eq_nil]
  | cons c cs =>
    obtain ⟨ds, rfl, hds⟩ := h.exists_cons
    by_cases hc : c = '\r'
    · rw [hc, breakWidth_return, breakWidth_return, hds.head?]
    · rw [breakWidth_other hc, breakWidth_other hc]

theorem quoteTail_agree (hq : q ≠ '\\') (h : quoteTail q cs = some n) (ha : Agree n cs ds) :
    quoteTail q ds = some n := by
  fun_induction quoteTail q cs generalizing ds n with
  | case1 => cases h
  | case2 d cs ih =>
    obtain ⟨i, hi, rfl⟩ := Option.map_eq_some_iff.mp h
    obtain ⟨es, rfl, hes⟩ := ha.exists_cons
    obtain ⟨fs, rfl, hfs⟩ := hes.exists_cons
    rw [quoteTail, ih hi hfs]
    rfl
  | case3 cs hesc =>
    cases h
    obtain ⟨ds, rfl, hds⟩ := ha.exists_cons
    rw [quoteTail, if_pos rfl]
    rintro d es rfl
    exact absurd rfl hq
  | case4 => cases h
  | case5 c cs hesc hc hback ih =>
    obtain ⟨i, hi, rfl⟩ := Option.map_eq_some_iff.mp h
    obtain ⟨ds, rfl, hds⟩ := ha.exists_cons
    rw [quoteTail, if_neg hc, if_neg hback, ih hi hds]
    · rfl
    · rintro d es rfl
      exact absurd rfl hback

end
end Text

namespace Piece
open Text

section
variable {c : Char} {cs ds label : List Char} {n : Nat}

theorem commentTail_agree (h : Agree (commentTail cs + 1) cs ds) :
    commentTail ds = commentTail cs := by
  fun_induction commentTail cs generalizing ds with
  | case1 cs =>
    obtain ⟨es, rfl, hes⟩ := h.exists_cons
    obtain ⟨fs, rfl, -⟩ := hes.exists_cons
    rfl
  | case2 c cs hend ih =>
    obtain ⟨es, rfl, hes⟩ := h.exists_cons
    rw [commentTail, ih hes]
    rintro rest rfl rfl
    obtain ⟨tail, htail⟩ := List.head?_eq_some_iff.mp (hes.head?.trans rfl)
    exact hend tail rfl htail
  | case3 => rw [h.eq_nil]; rfl

theorem nameTail_agree (h : Agree (nameTail cs + 2) cs ds) : nameTail ds = nameTail cs := by
  fun_induction nameTail cs generalizing ds with
  | case1 => rw [h.eq_nil]; rfl
  | case2 c cs hc ih =>
    obtain ⟨es, rfl, hes⟩ := h.exists_cons
    obtain ⟨fs, rfl, hfs⟩ := hes.exists_cons
    rw [nameTail, if_pos hc, ih hfs]
  | case3 c cs hc =>
    obtain ⟨es, rfl, hes⟩ := h.exists_cons
    obtain ⟨fs, rfl, hfs⟩ := hes.exists_cons
    rw [nameTail, if_neg hc]
  | case4 c cs hback hc ih =>
    obtain ⟨es, rfl, hes⟩ := h.exists_cons
    rw [nameTail_cons hc, ih hes]
  | case5 c cs hback hc =>
    obtain ⟨es, rfl, hes⟩ := h.exists_cons
    cases es with
    | nil => simp [nameTail, hc]
    | cons d es =>
      rw [nameTail, if_neg hc]
      rintro d' es' rfl hd
      obtain ⟨rest, hrest⟩ := List.head?_eq_some_iff.mp (hes.head?.trans (by rw [hd]; rfl))
      exact hback d' rest rfl hrest

def signWidth : List Char → Nat
  | s :: _ => if s = '+' ∨ s = '-' then 1 else 0
  | [] => 0

theorem signWidth_le (cs : List Char) : signWidth cs ≤ 1 := by
  unfold signWidth
  split
  · split <;> decide
  · decide

theorem signWidth_agree (h : Agree 1 cs ds) : signWidth ds = signWidth cs := by
  cases cs with
  | nil => rw [h.eq_nil]
  | cons c cs =>
    obtain ⟨es, rfl, -⟩ := h.exists_cons
    rfl

theorem exponentTail_cons (e : Char) (cs : List Char) : exponentTail (e :: cs) =
    if e = 'e' ∨ e = 'E' then
      if run Char.isDigit (cs.drop (signWidth cs)) = 0 then 0
      else 1 + signWidth cs + run Char.isDigit (cs.drop (signWidth cs))
    else 0 :=
  rfl

theorem exponentTail_agree (h : Agree (exponentTail cs + 3) cs ds) :
    exponentTail ds = exponentTail cs := by
  cases cs with
  | nil => rw [h.eq_nil]
  | cons e cs =>
    obtain ⟨es, rfl, hes⟩ := h.exists_cons
    have hsign := signWidth_agree (hes.mono (Nat.le_add_left 1 _))
    have hwidth := signWidth_le cs
    have hdigits : Agree (run Char.isDigit (cs.drop (signWidth cs)) + 1)
        (cs.drop (signWidth cs)) (es.drop (signWidth cs)) ∨ ¬(e = 'e' ∨ e = 'E') := by
      by_cases he : e = 'e' ∨ e = 'E'
      · refine .inl (hes.mono ?_).drop
        rw [exponentTail_cons, if_pos he]
        split <;> omega
      · exact .inr he
    rw [exponentTail_cons, exponentTail_cons, hsign]
    rcases hdigits with hdigits | he
    · rw [run_agree hdigits]
    · rw [if_neg he, if_neg he]

theorem fractionTail_agree (h : Agree ((fractionTail cs).getD 0 + 3) cs ds) :
    fractionTail ds = fractionTail cs := by
  cases cs with
  | nil => rw [h.eq_nil]
  | cons d cs =>
    obtain ⟨es, rfl, hes⟩ := h.exists_cons
    unfold fractionTail at hes ⊢
    simp only at hes ⊢
    by_cases hd : d.isDigit = true
    · simp only [hd, if_true, Option.getD_some] at hes ⊢
      have hrun := run_agree (hes.mono (m := run isDigits cs + 1) (by omega))
      have hrest : Agree (exponentTail ((d :: cs).drop (1 + run isDigits cs)) + 3)
          ((d :: cs).drop (1 + run isDigits cs)) ((d :: es).drop (1 + run isDigits cs)) := by
        rw [Nat.add_comm 1 (run isDigits cs), List.drop_succ_cons, List.drop_succ_cons] at *
        exact (hes.mono (by omega)).drop
      rw [hrun, exponentTail_agree hrest]
    · simp only [hd, Bool.false_eq_true, if_false]

def integerTail (c : Char) : List Char → Nat
  | x :: digits =>
    if c = '0' ∧ (x = 'x' ∨ x = 'X') ∧ 0 < run isHexDigits digits then 1 + run isHexDigits digits
    else if c = '0' ∧ (x = 'b' ∨ x = 'B') ∧ 0 < run isBinaryDigits digits then
      1 + run isBinaryDigits digits
    else run isDigits (x :: digits)
  | [] => 0

theorem integerTail_cons (c x : Char) (digits : List Char) : integerTail c (x :: digits) =
    if c = '0' ∧ (x = 'x' ∨ x = 'X') ∧ 0 < run isHexDigits digits then 1 + run isHexDigits digits
    else if c = '0' ∧ (x = 'b' ∨ x = 'B') ∧ 0 < run isBinaryDigits digits then
      1 + run isBinaryDigits digits
    else run isDigits (x :: digits) :=
  rfl

theorem run_le_integerTail (c : Char) (cs : List Char) : run isDigits cs ≤ integerTail c cs := by
  have hletter : ∀ x digits, isDigits x = false → run isDigits (x :: digits) = 0 :=
    fun x digits hx => by simp [run, hx]
  cases cs with
  | nil => exact Nat.le_refl _
  | cons x digits =>
    rw [integerTail_cons]
    split
    · rename_i hx
      rw [hletter x digits (by rcases hx.2.1 with rfl | rfl <;> decide)]
      exact Nat.zero_le _
    · split
      · rename_i hx
        rw [hletter x digits (by rcases hx.2.1 with rfl | rfl <;> decide)]
        exact Nat.zero_le _
      · exact Nat.le_refl _

theorem numberTail_eq (c : Char) (cs : List Char) : numberTail c cs =
    if (cs.drop (run isDigits cs)).head? = some '.' then
      let n := run isDigits cs + 1 + run isDigits (cs.drop (run isDigits cs + 1))
      (.decimal, n + exponentTail (cs.drop n))
    else if 0 < exponentTail (cs.drop (run isDigits cs)) then
      (.decimal, run isDigits cs + exponentTail (cs.drop (run isDigits cs)))
    else (.integer, integerTail c cs) := by
  unfold numberTail
  simp only
  split
  · rename_i fraction hrest
    have hfraction : cs.drop (run isDigits cs + 1) = fraction := by
      rw [← List.drop_drop, hrest, List.drop_succ_cons, List.drop_zero]
    simp only [hrest, List.head?_cons, if_true, hfraction]
  · rename_i hdot
    have hhead : (cs.drop (run isDigits cs)).head? ≠ some '.' := fun hhead =>
      have ⟨fraction, hrest⟩ := List.head?_eq_some_iff.mp hhead
      hdot fraction hrest
    by_cases hexponent : 0 < exponentTail (cs.drop (run isDigits cs))
    · simp only [hhead, hexponent, if_true, if_false]
    · simp only [hhead, hexponent, if_false]
      cases cs with
      | nil => rfl
      | cons x digits =>
        rw [integerTail_cons]
        simp only
        split
        · rfl
        · split <;> rfl

theorem integerTail_agree (h : Agree (integerTail c cs + 2) cs ds) :
    integerTail c ds = integerTail c cs := by
  cases cs with
  | nil => rw [h.eq_nil]
  | cons x digits =>
    obtain ⟨es, rfl, hes⟩ := h.exists_cons
    have hdigits : run isDigits (x :: es) = run isDigits (x :: digits) :=
      run_agree (h.mono (by have := run_le_integerTail c (x :: digits); omega))
    rw [integerTail_cons] at hes
    rw [integerTail_cons, integerTail_cons, hdigits]
    by_cases hhex : c = '0' ∧ (x = 'x' ∨ x = 'X')
    · have hrun : run isHexDigits es = run isHexDigits digits := by
        refine run_agree (hes.mono ?_)
        simp only [hhex, true_and]
        split <;> omega
      have hbinary : ¬(x = 'b' ∨ x = 'B') := by rcases hhex.2 with rfl | rfl <;> decide
      simp only [hrun, hbinary, false_and, and_false, if_false]
    · have hnone : ∀ es, ¬(c = '0' ∧ (x = 'x' ∨ x = 'X') ∧ 0 < run isHexDigits es) :=
        fun es h => hhex ⟨h.1, h.2.1⟩
      rw [if_neg (hnone digits)] at hes ⊢
      rw [if_neg (hnone es)]
      by_cases hbinary : c = '0' ∧ (x = 'b' ∨ x = 'B')
      · have hrun : run isBinaryDigits es = run isBinaryDigits digits := by
          refine run_agree (hes.mono ?_)
          simp only [hbinary, true_and]
          split <;> omega
        rw [hrun]
      · rw [if_neg fun h => hbinary ⟨h.1, h.2.1⟩, if_neg fun h => hbinary ⟨h.1, h.2.1⟩]

theorem numberTail_agree (h : Agree ((numberTail c cs).2 + 4) cs ds) :
    numberTail c ds = numberTail c cs := by
  have hwhole : run isDigits cs ≤ (numberTail c cs).2 := by
    rw [numberTail_eq]
    split
    · simp only
      omega
    · split
      · exact Nat.le_add_right _ _
      · exact run_le_integerTail c cs
  have hrun := run_agree (h.mono (m := run isDigits cs + 1) (by omega))
  have hrest : Agree 1 (cs.drop (run isDigits cs)) (ds.drop (run isDigits cs)) :=
    (h.mono (by omega)).drop
  rw [numberTail_eq c cs] at h
  rw [numberTail_eq, numberTail_eq, hrun, ← hrest.head?]
  split
  · rename_i hdot
    simp only [hdot, if_true] at h ⊢
    have hfraction := run_agree (p := isDigits) (Agree.drop (m := run isDigits cs + 1)
      (h.mono (m := run isDigits cs + 1 + (run isDigits (cs.drop (run isDigits cs + 1)) + 1))
        (by omega)))
    rw [hfraction, exponentTail_agree (Agree.drop (h.mono (by omega)))]
  · rename_i hdot
    rw [if_neg hdot] at h
    have hexponent : Agree (exponentTail (cs.drop (run isDigits cs)) + 3)
        (cs.drop (run isDigits cs)) (ds.drop (run isDigits cs)) := by
      refine Agree.drop (h.mono ?_)
      split
      · simp only
        omega
      · have := run_le_integerTail c cs
        simp only
        omega
    rw [exponentTail_agree hexponent]
    split
    · rfl
    · rename_i hnone
      rw [if_neg hnone] at h
      rw [integerTail_agree (h.mono (by simp))]

theorem isPrefixOf_agree {word : List Char} (h : Agree word.length cs ds) :
    word.isPrefixOf ds = word.isPrefixOf cs := by
  rw [Bool.eq_iff_iff, List.isPrefixOf_iff_prefix, List.isPrefixOf_iff_prefix,
    List.prefix_iff_eq_take, List.prefix_iff_eq_take, ← h]

theorem closingLabel_agree (h : closingLabel label cs = some n) (ha : Agree (n + 1) cs ds) :
    closingLabel label ds = some n := by
  have hn : n = run isIndent cs + label.length := by
    unfold closingLabel at h
    simp only at h
    split at h
    · exact (Option.some.inj h).symm
    · cases h
  have hrun := run_agree (ha.mono (m := run isIndent cs + 1) (by omega))
  have hrest : Agree (label.length + 1) (cs.drop (run isIndent cs)) (ds.drop (run isIndent cs)) :=
    (ha.mono (by omega)).drop
  rw [← h, closingLabel, closingLabel, hrun, isPrefixOf_agree (hrest.mono (Nat.le_succ _))]
  simp only [hrest.drop.head?]

/-- What stands after a line break does not matter to whether a label stands before it. -/
theorem closingLabel_line (hlabel : '\n' ∉ label) (line rest rest' : List Char) :
    closingLabel label (line ++ '\n' :: rest) = closingLabel label (line ++ '\n' :: rest') := by
  have hprefix : ∀ line rest : List Char,
      label.isPrefixOf (line ++ '\n' :: rest) = label.isPrefixOf line := by
    intro line rest
    rw [Bool.eq_iff_iff, List.isPrefixOf_iff_prefix, List.isPrefixOf_iff_prefix]
    refine ⟨fun h => ?_, fun h => h.trans (List.prefix_append _ _)⟩
    rcases Nat.lt_or_ge line.length label.length with hlt | hge
    · have hline : line ++ ['\n'] <+: label := by
        have hfirst : line ++ ['\n'] <+: line ++ '\n' :: rest := ⟨rest, by simp⟩
        refine List.prefix_of_prefix_length_le hfirst h ?_
        rw [List.length_append]
        exact hlt
      exact absurd (hline.subset (by simp)) hlabel
    · exact List.prefix_of_prefix_length_le h (List.prefix_append _ _) hge
  have hrun : ∀ rest : List Char, run isIndent (line ++ '\n' :: rest) = run isIndent line := by
    intro rest
    rw [run, run, List.takeWhile_append]
    split
    · rename_i hall
      simp [isIndent, hall]
    · rfl
  have hle := run_le_length isIndent line
  have hdrop : ∀ rest : List Char, (line ++ '\n' :: rest).drop (run isIndent line) =
      line.drop (run isIndent line) ++ '\n' :: rest := fun rest => List.drop_append_of_le_length hle
  rw [closingLabel, closingLabel, hrun, hrun, hdrop, hdrop, hprefix, hprefix]
  -- the label stands in the line, so that what follows it is the same
  by_cases hin : label <+: line.drop (run isIndent line)
  · rw [List.drop_append_of_le_length hin.length_le, List.drop_append_of_le_length hin.length_le]
    cases (line.drop (run isIndent line)).drop label.length <;> rfl
  · have hno : label.isPrefixOf (line.drop (run isIndent line)) = false := by
      rwa [Bool.eq_false_iff, ne_eq, List.isPrefixOf_iff_prefix]
    simp only [hno, Bool.false_and]

/-- A heredoc that does not end where it begins has a line break before its end. -/
theorem newline_of_heredocBody (h : heredocBody label false cs = some n) : '\n' ∈ cs.take n := by
  generalize ha : false = atStart at h
  fun_induction heredocBody label atStart cs generalizing n with
  | case1 atStart cs m hend =>
    subst ha
    cases hend
  | case2 => cases h
  | case3 atStart c cs hnone ih =>
    obtain ⟨m, hm, rfl⟩ := Option.map_eq_some_iff.mp h
    rw [List.take_succ_cons]
    by_cases hc : c = '\n'
    · exact hc ▸ List.mem_cons_self
    · exact List.mem_cons_of_mem _ (ih (by simp [hc]) hm)

theorem heredocBody_agree {atStart : Bool} (hlabel : '\n' ∉ label)
    (h : heredocBody label atStart cs = some n) (ha : Agree (n + 1) cs ds) :
    heredocBody label atStart ds = some n := by
  fun_induction heredocBody label atStart cs generalizing n ds with
  | case1 cs atStart m hend =>
    cases h
    have hend' : (if atStart then closingLabel label ds else none) = some m := by
      split at hend
      · rename_i hstart
        rw [if_pos hstart]
        exact closingLabel_agree hend ha
      · cases hend
    rw [heredocBody.eq_def, hend']
  | case2 => cases h
  | case3 atStart c cs hnone ih =>
    obtain ⟨m, hm, rfl⟩ := Option.map_eq_some_iff.mp h
    obtain ⟨es, rfl, hes⟩ := ha.exists_cons
    have hsame : closingLabel label (c :: es) = closingLabel label (c :: cs) := by
      have hmem : '\n' ∈ (c :: cs).take (m + 1) := by
        rw [List.take_succ_cons]
        by_cases hc : c = '\n'
        · exact hc ▸ List.mem_cons_self
        · rw [show (c == '\n') = false by simp [hc]] at hm
          exact List.mem_cons_of_mem _ (newline_of_heredocBody hm)
      obtain ⟨line, rest, hline⟩ := List.append_of_mem hmem
      have hline' : (c :: es).take (m + 1) = line ++ '\n' :: rest :=
        (ha.mono (Nat.le_succ _)).symm.trans hline
      have hcs := List.take_append_drop (m + 1) (c :: cs)
      have hes := List.take_append_drop (m + 1) (c :: es)
      rw [hline, List.append_assoc, List.cons_append] at hcs
      rw [hline', List.append_assoc, List.cons_append] at hes
      rw [← hcs, ← hes]
      exact closingLabel_line hlabel line _ _
    have hnone' : (if atStart then closingLabel label (c :: es) else none) = none := by
      rwa [hsame]
    rw [heredocBody.eq_def, hnone']
    simp only [ih hm hes, Option.map_some]

def quoteOf : List Char → List Char
  | q :: _ => if q = '\'' ∨ q = '"' then [q] else []
  | [] => []

def labelOf : List Char → List Char
  | c :: rest => if beginsIdent c then c :: rest.takeWhile isIdent else []
  | [] => []

theorem quoteOf_agree (h : Agree 1 cs ds) : quoteOf ds = quoteOf cs := by
  cases cs with
  | nil => rw [h.eq_nil]
  | cons c cs =>
    obtain ⟨es, rfl, -⟩ := h.exists_cons
    rfl

theorem labelOf_agree (h : Agree ((labelOf cs).length + 1) cs ds) : labelOf ds = labelOf cs := by
  cases cs with
  | nil => rw [h.eq_nil]
  | cons c cs =>
    obtain ⟨es, rfl, hes⟩ := h.exists_cons
    unfold labelOf at hes ⊢
    by_cases hc : beginsIdent c = true
    · simp only [hc, if_true] at hes ⊢
      rw [takeWhile_agree hes]
    · simp only [hc, Bool.false_eq_true, if_false]

theorem newline_of_labelOf (cs : List Char) : '\n' ∉ labelOf cs := by
  have hident : ∀ d : Char, isIdent d = true → d ≠ '\n' := by
    rintro d hd rfl
    revert hd
    decide
  unfold labelOf
  split
  · rename_i c rest
    split
    · rename_i hc
      rintro (_ | ⟨_, hmem⟩)
      · exact hident _ (isIdent_of_beginsIdent hc) rfl
      · exact hident _ (List.all_eq_true.mp List.all_takeWhile _ hmem) rfl
    · simp
  · simp

theorem heredocTail_eq (cs : List Char) : heredocTail cs =
    let opened := cs.drop (run isIndent cs)
    let quote := quoteOf opened
    let named := opened.drop quote.length
    let label := labelOf named
    let ended := named.drop label.length
    let body := ended.drop quote.length
    let width := breakWidth body
    if label.isEmpty || !quote.isPrefixOf ended || width = 0 then none
    else
      (heredocBody label ((body.take width).getLast? == some '\n') (body.drop width)).map fun n =>
        run isIndent cs + quote.length + label.length + quote.length + width + n :=
  rfl

theorem heredocTail_agree (h : heredocTail cs = some n) (ha : Agree (n + 1) cs ds) :
    heredocTail ds = some n := by
  rw [heredocTail_eq] at h
  extract_lets opened quote named label ended body width at h
  split at h
  · cases h
  · rename_i hok
    obtain ⟨m, hm, rfl⟩ := Option.map_eq_some_iff.mp h
    have hwidth : width ≠ 0 := fun h0 => hok (by simp [h0])
    have hrun := run_agree (ha.mono (m := run isIndent cs + 1) (by omega))
    -- the two texts agree after every part of the opening line
    have hopened : Agree (quote.length + (label.length + (quote.length + (width + m + 1))))
        opened (ds.drop (run isIndent cs)) := (ha.mono (by omega)).drop
    have hquote : quoteOf (ds.drop (run isIndent cs)) = quote :=
      quoteOf_agree (hopened.mono (by omega))
    have hnamed := hopened.drop
    have hlabel : labelOf ((ds.drop (run isIndent cs)).drop quote.length) = label :=
      labelOf_agree (hnamed.mono (by change label.length + 1 ≤ _; omega))
    have hended := hnamed.drop
    have hprefix := isPrefixOf_agree (hended.mono (show quote.length ≤ _ by omega))
    have hbody := hended.drop
    have hbreak := breakWidth_agree (hbody.mono (by omega))
    have htake := hbody.mono (m := width) (by omega)
    have hrest := (hbody.mono (m := width + (m + 1)) (by omega)).drop
    have hagain := heredocBody_agree (newline_of_labelOf named) hm hrest
    rw [heredocTail_eq]
    simp only [hrun, hquote, hlabel, hprefix, hbreak]
    change (if label.isEmpty || !quote.isPrefixOf ended || width = 0 then none else _) = _
    rw [if_neg hok, ← htake, hagain]
    rfl

end
end Piece
end PhpDoc
