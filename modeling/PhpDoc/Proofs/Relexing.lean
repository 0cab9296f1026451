import PhpDoc.Proofs.Lexemes
import PhpDoc.Type.TypedTag
/-!
Cutting a text again whose words are respelled. A lexeme is cut off by its own characters and by how
the text after it begins, so the other lexemes stay as they are.
-/
namespace PhpDoc
namespace Lexing
open Text (run quoteTail)

variable {c d q : Char} {cs ds tail rest rest' : List Char} {p : Char → Bool} {k : LexemeKind}
  {n : Nat}

theorem run_append : run p (tail ++ rest) = tail.length ↔
    (∀ d ∈ tail, p d = true) ∧ rest.head?.any p = false := by
  induction tail with
  | nil =>
    cases rest with
    | nil => simp [run]
    | cons d rest => by_cases hd : p d <;> simp [run, hd]
  | cons d tail ih =>
    by_cases hd : p d = true
    · have hrun : run p (d :: tail ++ rest) = run p (tail ++ rest) + 1 := by simp [run, hd]
      rw [hrun, List.length_cons, Nat.add_right_cancel_iff, ih]
      simp [hd]
    · simp [run, hd]

/-- Texts that begin alike: no lexeme before one of them would go on before the other. -/
structure Alike (cs ds : List Char) : Prop where
  word : cs.head?.any isWord = ds.head?.any isWord
  name : cs.head?.any continuesName = ds.head?.any continuesName
  digits : cs.head?.any isDigits = ds.head?.any isDigits
  digit : cs.head?.any Char.isDigit = ds.head?.any Char.isDigit
  dot : cs.head?.any (· == '.') = ds.head?.any (· == '.')
  dots : (cs.take 2 == ['.', '.']) = (ds.take 2 == ['.', '.'])
  colon : cs.head?.any (· == ':') = ds.head?.any (· == ':')

theorem Alike.refl (cs : List Char) : Alike cs cs :=
  ⟨rfl, rfl, rfl, rfl, rfl, rfl, rfl⟩

structure EndsToo (cs ds : List Char) : Prop where
  word : cs.head?.any isWord = false → ds.head?.any isWord = false
  name : cs.head?.any continuesName = false → ds.head?.any continuesName = false
  digits : cs.head?.any isDigits = false → ds.head?.any isDigits = false
  digit : cs.head?.any Char.isDigit = false → ds.head?.any Char.isDigit = false
  dot : cs.head?.any (· == '.') = false → ds.head?.any (· == '.') = false
  dots : (cs.take 2 == ['.', '.']) = false → (ds.take 2 == ['.', '.']) = false
  colon : cs.head?.any (· == ':') = false → ds.head?.any (· == ':') = false

theorem Alike.endsToo (ha : Alike cs ds) : EndsToo cs ds :=
  ⟨ha.word.symm.trans, ha.name.symm.trans, ha.digits.symm.trans, ha.digit.symm.trans,
    ha.dot.symm.trans, ha.dots.symm.trans, ha.colon.symm.trans⟩

/-- Every lexeme ends at the end of the text. -/
theorem endsToo_nil (cs : List Char) : EndsToo cs [] :=
  ⟨fun _ => rfl, fun _ => rfl, fun _ => rfl, fun _ => rfl, fun _ => rfl, fun _ => rfl, fun _ => rfl⟩

theorem take_two_cons : ((c :: cs).take 2 == ['.', '.']) = (c == '.' && cs.head?.any (· == '.')) := by
  cases cs with
  | nil => simp
  | cons d cs => simp

theorem EndsToo.cons (h : EndsToo cs ds) : EndsToo (c :: cs) (c :: ds) := by
  refine ⟨id, id, id, id, id, ?_, id⟩
  rw [take_two_cons, take_two_cons, Bool.and_eq_false_iff, Bool.and_eq_false_iff]
  exact Or.imp_right h.dot

theorem EndsToo.append (h : EndsToo cs ds) : EndsToo (tail ++ cs) (tail ++ ds) := by
  induction tail with
  | nil => exact h
  | cons c tail ih => exact ih.cons

theorem numberTail_cons (hd : isDigits d = true) : numberTail (d :: cs) = numberTail cs + 1 := by
  have hrun : run isDigits (d :: cs) = run isDigits cs + 1 := by simp [run, hd]
  simp only [numberTail, hrun, List.drop_succ_cons]
  split
  · omega
  · rfl

theorem numberTail_dot : numberTail ('.' :: cs) = run isDigits cs + 1 := by
  have hrun : run isDigits ('.' :: cs) = 0 := by simp [run, isDigits, Char.isDigit]
  unfold numberTail
  rw [hrun]
  simp
  omega

theorem numberTail_eq_zero : numberTail cs = 0 ↔
    cs.head?.any isDigits = false ∧ cs.head?.any (· == '.') = false := by
  cases cs with
  | nil => simp [numberTail, run]
  | cons d cs =>
    by_cases hd : isDigits d = true
    · simp [numberTail_cons hd, hd]
    · by_cases hdot : d = '.'
      · subst hdot
        simp [numberTail_dot]
      · have hrun : run isDigits (d :: cs) = 0 := by simp [run, hd]
        have hzero : numberTail (d :: cs) = 0 := by
          unfold numberTail
          rw [hrun]
          simp [hdot]
        simp [hzero, hd, hdot]

theorem numberTail_endsToo (he : EndsToo rest rest') (h : numberTail (tail ++ rest) = tail.length) :
    numberTail (tail ++ rest') = tail.length := by
  induction tail with
  | nil =>
    rw [List.nil_append, List.length_nil, numberTail_eq_zero] at h ⊢
    exact ⟨he.digits h.1, he.dot h.2⟩
  | cons d tail ih =>
    rw [List.cons_append, List.length_cons] at h ⊢
    by_cases hd : isDigits d = true
    · rw [numberTail_cons hd] at h ⊢
      rw [ih (Nat.add_right_cancel h)]
    · by_cases hdot : d = '.'
      · subst hdot
        rw [numberTail_dot, Nat.add_right_cancel_iff, run_append] at h ⊢
        exact ⟨h.1, he.digits h.2⟩
      · have hzero : numberTail (d :: (tail ++ rest)) = 0 :=
          numberTail_eq_zero.mpr (by simp [hd, hdot])
        omega

theorem quoteTail_escape : quoteTail q ('\\' :: d :: cs) = (quoteTail q cs).map (· + 2) := by
  rw [quoteTail]

theorem quoteTail_cons (hc : c ≠ '\\') :
    quoteTail q (c :: cs) = if c = q then some 1 else (quoteTail q cs).map (· + 1) := by
  rw [quoteTail, if_neg hc]
  rintro d rest rfl _
  exact hc rfl

theorem quoteTail_ne_zero : quoteTail q cs ≠ some 0 := by
  intro h
  unfold quoteTail at h
  split at h
  · cases h
  · simp at h
  · split at h
    · simp at h
    · split at h
      · cases h
      · simp at h

/-- The end of a literal does not depend on what follows it. -/
theorem quoteTail_append (hq : q ≠ '\\') (tail : List Char)
    (h : quoteTail q (tail ++ rest) = some tail.length) :
    quoteTail q (tail ++ rest') = some tail.length := by
  match tail with
  | [] => exact (quoteTail_ne_zero h).elim
  | c :: tail =>
    by_cases hc : c = '\\'
    · subst hc
      cases tail with
      | nil =>
        exfalso
        cases rest with
        | nil => simp [quoteTail, hq.symm] at h
        | cons d rest => simp [quoteTail_escape] at h
      | cons d tail =>
        simp only [List.cons_append, quoteTail_escape, List.length_cons] at h ⊢
        obtain ⟨n, hn, he⟩ := Option.map_eq_some_iff.mp h
        rw [quoteTail_append hq tail (hn.trans (by rw [Nat.add_right_cancel he]))]
        rfl
    · simp only [List.cons_append, quoteTail_cons hc, List.length_cons] at h ⊢
      split at h
      · next he => rw [if_pos he, h]
      · next he =>
        obtain ⟨n, hn, hl⟩ := Option.map_eq_some_iff.mp h
        rw [if_neg he, quoteTail_append hq tail (hn.trans (by rw [Nat.add_right_cancel hl]))]
        rfl
termination_by tail.length

def signTail (c : Char) (cs : List Char) : LexemeKind × Nat :=
  match c, cs with
  | '-', d :: rest => if d.isDigit then (.number, 1 + numberTail rest) else (.symbol, 0)
  | '.', '.' :: '.' :: _ => (.splat, 2)
  | ':', ':' :: _ => (.dcolon, 1)
  | _, _ => (.symbol, 0)

theorem signTail_other (h₁ : ∀ d rest, c = '-' → cs = d :: rest → False)
    (h₂ : ∀ rest, c = '.' → cs = '.' :: '.' :: rest → False)
    (h₃ : ∀ rest, c = ':' → cs = ':' :: rest → False) : signTail c cs = (.symbol, 0) := by
  unfold signTail
  split
  · exact (h₁ _ _ rfl rfl).elim
  · exact (h₂ _ rfl rfl).elim
  · exact (h₃ _ rfl rfl).elim
  · rfl

theorem lexemeTail_sign (hv : c ≠ '$') (hn : ¬beginsName c = true) (hd : ¬c.isDigit = true)
    (hq : ¬(c = '\'' ∨ c = '"')) : lexemeTail c cs = some (signTail c cs) := by
  unfold lexemeTail
  rw [if_neg hv, if_neg hn, if_neg hd, if_neg hq]
  split
  · next d rest => by_cases hr : d.isDigit = true <;> simp [signTail, hr]
  · rfl
  · rfl
  · next h₁ h₂ h₃ => rw [signTail_other h₁ h₂ h₃]

inductive LexemeCut (c : Char) (cs : List Char) : LexemeKind → Nat → Prop
  | variableName (hc : c = '$') : LexemeCut c cs .variable (run isWord cs)
  | name (hc : beginsName c = true) : LexemeCut c cs .name (run continuesName cs)
  | number (hc : c.isDigit = true) : LexemeCut c cs .number (numberTail cs)
  | quoted {m : Nat} (hc : c = '\'' ∨ c = '"') (hm : quoteTail c cs = some m) :
    LexemeCut c cs .quoted m
  | sign : LexemeCut c cs (signTail c cs).1 (signTail c cs).2

theorem lexemeTail_cut (h : lexemeTail c cs = some (k, n)) : LexemeCut c cs k n := by
  by_cases hv : c = '$'
  · unfold lexemeTail at h
    rw [if_pos hv] at h
    cases h
    exact .variableName hv
  by_cases hn : beginsName c = true
  · rw [lexemeTail_name hn] at h
    cases h
    exact .name hn
  by_cases hd : c.isDigit = true
  · unfold lexemeTail at h
    rw [if_neg hv, if_neg hn, if_pos hd] at h
    cases h
    exact .number hd
  by_cases hq : c = '\'' ∨ c = '"'
  · unfold lexemeTail at h
    rw [if_neg hv, if_neg hn, if_neg hd, if_pos hq] at h
    obtain ⟨m, hm, he⟩ := Option.map_eq_some_iff.mp h
    cases he
    exact .quoted hq hm
  · rw [lexemeTail_sign hv hn hd hq] at h
    obtain ⟨rfl, rfl⟩ := Prod.ext_iff.mp (Option.some.inj h)
    exact .sign

theorem signTail_minus (h : cs.head?.any Char.isDigit = false) :
    signTail '-' cs = (.symbol, 0) := by
  cases cs with
  | nil => rfl
  | cons d cs =>
    have hd : d.isDigit = false := h
    simp [signTail, hd]

theorem signTail_minus_digit (hd : d.isDigit = true) :
    signTail '-' (d :: cs) = (.number, 1 + numberTail cs) := by
  simp [signTail, hd]

theorem signTail_dot : signTail '.' cs =
    if cs.take 2 == ['.', '.'] then (.splat, 2) else (.symbol, 0) := by
  match cs with
  | [] => rfl
  | [d] => simp [signTail]
  | d :: e :: cs =>
    by_cases hd : d = '.' ∧ e = '.'
    · obtain ⟨rfl, rfl⟩ := hd
      rfl
    · rw [if_neg (by simpa using hd)]
      exact signTail_other (by simp) (by simp_all) (by simp)

theorem signTail_colon : signTail ':' cs =
    if cs.head?.any (· == ':') then (.dcolon, 1) else (.symbol, 0) := by
  cases cs with
  | nil => rfl
  | cons d cs =>
    by_cases hd : d = ':'
    · subst hd
      rfl
    · simp [signTail, hd]

theorem signTail_of_ne (h₁ : c ≠ '-') (h₂ : c ≠ '.') (h₃ : c ≠ ':') :
    signTail c cs = (.symbol, 0) :=
  signTail_other (fun _ _ h _ => h₁ h) (fun _ h _ => h₂ h) (fun _ h _ => h₃ h)

theorem signTail_endsToo (he : EndsToo rest rest') (h : signTail c (tail ++ rest) = (k, tail.length)) :
    signTail c (tail ++ rest') = (k, tail.length) := by
  by_cases h₁ : c = '-'
  · subst h₁
    cases tail with
    | nil =>
      by_cases hd : rest.head?.any Char.isDigit = true
      · cases rest with
        | nil => simp at hd
        | cons d rest => simp [signTail_minus_digit hd] at h
      · rw [Bool.not_eq_true] at hd
        rw [List.nil_append, signTail_minus hd] at h
        rw [List.nil_append, signTail_minus (he.digit hd), h]
    | cons d tail =>
      rw [List.cons_append, List.length_cons] at h ⊢
      by_cases hd : d.isDigit = true
      · rw [signTail_minus_digit hd, Prod.mk.injEq, Nat.add_comm, Nat.add_right_cancel_iff] at h
        rw [signTail_minus_digit hd, numberTail_endsToo he h.2, h.1, Nat.add_comm]
      · rw [signTail_minus (by simpa using hd)] at h
        simp at h
  by_cases h₂ : c = '.'
  · subst h₂
    rw [signTail_dot] at h ⊢
    match tail with
    | [] =>
      rw [List.nil_append] at h ⊢
      split at h
      · simp at h
      · next hd =>
        rw [he.dots (by simpa using hd), h]
        rfl
    | [d] => split at h <;> simp at h
    | d :: e :: tail => exact h
  by_cases h₃ : c = ':'
  · subst h₃
    rw [signTail_colon] at h ⊢
    cases tail with
    | nil =>
      rw [List.nil_append] at h ⊢
      split at h
      · simp at h
      · next hd =>
        rw [he.colon (by simpa using hd), h]
        rfl
    | cons d tail => exact h
  · rw [signTail_of_ne h₁ h₂ h₃] at h ⊢
    exact h

theorem lexemeTail_endsToo (he : EndsToo rest rest')
    (h : lexemeTail c (tail ++ rest) = some (k, tail.length)) :
    lexemeTail c (tail ++ rest') = some (k, tail.length) := by
  by_cases hn : beginsName c = true
  · rw [lexemeTail_name hn] at h ⊢
    simp only [Option.some.injEq, Prod.mk.injEq, run_append] at h ⊢
    exact ⟨h.1, h.2.1, he.name h.2.2⟩
  by_cases hv : c = '$'
  · unfold lexemeTail at h ⊢
    rw [if_pos hv] at h ⊢
    simp only [Option.some.injEq, Prod.mk.injEq, run_append] at h ⊢
    exact ⟨h.1, h.2.1, he.word h.2.2⟩
  by_cases hd : c.isDigit = true
  · unfold lexemeTail at h ⊢
    rw [if_neg hv, if_neg hn, if_pos hd] at h ⊢
    simp only [Option.some.injEq, Prod.mk.injEq] at h ⊢
    exact ⟨h.1, numberTail_endsToo he h.2⟩
  by_cases hq : c = '\'' ∨ c = '"'
  · unfold lexemeTail at h ⊢
    rw [if_neg hv, if_neg hn, if_neg hd, if_pos hq] at h ⊢
    simp only [Option.map_eq_some_iff, Prod.mk.injEq] at h ⊢
    obtain ⟨n, hn, hk, rfl⟩ := h
    have hne : c ≠ '\\' := by
      rintro rfl
      revert hq
      decide
    exact ⟨_, quoteTail_append hne tail hn, hk, rfl⟩
  · rw [lexemeTail_sign hv hn hd hq, Option.some.injEq] at h ⊢
    exact signTail_endsToo he h

theorem numberTail_le : numberTail cs ≤ cs.length := by
  have hle := Text.run_le_length isDigits cs
  simp only [numberTail]
  split
  · next rest hr =>
    have hlen := congrArg List.length hr
    have hrun := Text.run_le_length isDigits rest
    rw [List.length_drop, List.length_cons] at hlen
    omega
  · exact hle

theorem signTail_le (h : signTail c cs = (k, n)) : n ≤ cs.length := by
  unfold signTail at h
  split at h
  · next d rest =>
    have hle := @numberTail_le rest
    split at h
    · cases h
      simp only [List.length_cons]
      omega
    · cases h
      omega
  · cases h
    simp
  · cases h
    simp
  · cases h
    omega

theorem lexemeTail_le (h : lexemeTail c cs = some (k, n)) : n ≤ cs.length := by
  cases lexemeTail_cut h with
  | variableName | name => exact Text.run_le_length _ _
  | number => exact numberTail_le
  | quoted hc hm => exact Text.quoteTail_le_length hm
  | sign => exact signTail_le rfl

/-- The lexemes from place `n` up to place `m` of a text, and the texts from there on. The flags
tell whether a blank stands before. -/
inductive Lexed : Nat → Bool → List Char → List Lexeme → Nat → Bool → List Char → Prop
  | nil (n : Nat) (sp : Bool) (cs : List Char) : Lexed n sp cs [] n sp cs
  | cons {n m : Nat} {sp sp' : Bool} {gap tail rest ds : List Char} {c : Char} {k : LexemeKind}
      {ls : List Lexeme} (hgap : ∀ d ∈ gap, Text.isWhiteSpace d = true)
      (hc : Text.isWhiteSpace c = false)
      (ht : lexemeTail c (tail ++ rest) = some (k, tail.length))
      (hl : Lexed (n + gap.length + 1 + tail.length) (Text.isBlank (tail.getLastD c)) rest ls m sp' ds) :
      Lexed n sp (gap ++ c :: (tail ++ rest))
        (⟨k, n + gap.length, String.ofList (c :: tail), sp || !gap.isEmpty⟩ :: ls) m sp' ds

variable {m n' : Nat} {sp sp' : Bool} {ls ls' : List Lexeme} {gap : List Char} {stop : Nat}
  {text : List Char} {words : List Nat}

theorem lexFrom_gap (hgap : ∀ d ∈ gap, Text.isWhiteSpace d = true) :
    lexFrom n sp (gap ++ cs) = lexFrom (n + gap.length) (sp || !gap.isEmpty) cs := by
  induction gap generalizing n sp with
  | nil => simp
  | cons d gap ih =>
    rw [List.cons_append, lexFrom, if_pos (hgap d (by simp)), ih fun e he => hgap e (by simp [he])]
    simp [Nat.add_assoc, Nat.add_comm 1]

theorem lexFrom_cons (hc : Text.isWhiteSpace c = false)
    (ht : lexemeTail c (tail ++ rest) = some (k, tail.length)) :
    lexFrom n sp (c :: (tail ++ rest)) =
      ⟨⟨k, n, String.ofList (c :: tail), sp⟩ ::
        (lexFrom (n + 1 + tail.length) (Text.isBlank (tail.getLastD c)) rest).lexemes,
        (lexFrom (n + 1 + tail.length) (Text.isBlank (tail.getLastD c)) rest).stop⟩ := by
  rw [lexFrom, if_neg (by simp [hc])]
  simp only [ht, List.take_left', List.drop_left']

/-- Lexemes that are cut off one after another are those of the text. -/
theorem Lexed.lexFrom_eq (h : Lexed n sp cs ls m sp' ds) :
    lexFrom n sp cs = ⟨ls ++ (lexFrom m sp' ds).lexemes, (lexFrom m sp' ds).stop⟩ := by
  induction h with
  | nil => rfl
  | cons hgap hc ht hl ih =>
    rw [lexFrom_gap hgap, lexFrom_cons hc ht, ih]
    rfl

theorem exists_lexed_cons {l : Lexeme} (h : lexFrom n sp cs = ⟨l :: ls, stop⟩) :
    ∃ m sp' ds, Lexed n sp cs [l] m sp' ds ∧ lexFrom m sp' ds = ⟨ls, stop⟩ := by
  obtain ⟨gap, ds, hcs, hgap, hds⟩ : ∃ gap ds, cs = gap ++ ds ∧
      (∀ d ∈ gap, Text.isWhiteSpace d = true) ∧ ∀ c ∈ ds.head?, Text.isWhiteSpace c = false := by
    refine ⟨_, _, (List.takeWhile_append_dropWhile (p := Text.isWhiteSpace)).symm, fun d hd => ?_,
      fun c hc => ?_⟩
    · exact List.all_eq_true.mp List.all_takeWhile d hd
    · have hno := List.head?_dropWhile_not Text.isWhiteSpace cs
      rw [hc] at hno
      simpa using hno
  subst hcs
  rw [lexFrom_gap hgap] at h
  cases ds with
  | nil => simp [lexFrom] at h
  | cons c cs =>
    have hc : Text.isWhiteSpace c = false := hds c rfl
    cases ht : lexemeTail c cs with
    | none => simp [lexFrom, hc, ht] at h
    | some r =>
      obtain ⟨k, i⟩ := r
      obtain ⟨tail, rest, rfl, rfl⟩ : ∃ tail rest, cs = tail ++ rest ∧ tail.length = i :=
        ⟨_, _, (List.take_append_drop i cs).symm, List.length_take_of_le (lexemeTail_le ht)⟩
      rw [lexFrom_cons hc ht] at h
      simp only [Lexing.mk.injEq, List.cons.injEq] at h
      obtain ⟨⟨rfl, rfl⟩, rfl⟩ := h
      exact ⟨_, _, _, .cons hgap hc ht (.nil _ _ _), rfl⟩

/-- The lexemes of a text up to one of them are cut off one after another. -/
theorem exists_lexed (h : lexFrom n sp cs = ⟨ls ++ ls', stop⟩) :
    ∃ m sp' ds, Lexed n sp cs ls m sp' ds ∧ lexFrom m sp' ds = ⟨ls', stop⟩ := by
  induction ls generalizing n sp cs with
  | nil => exact ⟨n, sp, cs, .nil _ _ _, h⟩
  | cons l ls ih =>
    obtain ⟨i, sp₁, es, hl, hes⟩ := exists_lexed_cons h
    obtain ⟨m, sp', ds, hls, hds⟩ := ih hes
    refine ⟨m, sp', ds, ?_, hds⟩
    cases hl with
    | cons hgap hc ht hnil =>
      cases hnil
      exact .cons hgap hc ht hls

def shift (i : Nat) (l : Lexeme) : Lexeme :=
  { l with start := l.start + i }

theorem lexFrom_shift (i n : Nat) (sp : Bool) (cs : List Char) : lexFrom (n + i) sp cs =
    ⟨(lexFrom n sp cs).lexemes.map (shift i), (lexFrom n sp cs).stop + i⟩ := by
  fun_induction lexFrom n sp cs with
  | case1 n sp => simp [lexFrom]
  | case2 n sp c cs hw ih => rw [lexFrom, if_pos hw, ← ih, Nat.add_right_comm]
  | case3 n sp c cs hw ht =>
    rw [lexFrom, if_neg hw]
    simp [ht]
  | case4 n sp c cs hw k j ht tail rest ih =>
    rw [lexFrom, if_neg hw]
    have hn : n + i + 1 + tail.length = n + 1 + tail.length + i := by omega
    simp only [ht]
    rw [hn, ih]
    rfl

theorem le_start_of_mem {l : Lexeme} (hl : l ∈ (lexFrom n sp cs).lexemes) : n ≤ l.start := by
  fun_induction lexFrom n sp cs with
  | case1 => simp at hl
  | case2 n sp c cs hw ih =>
    have hle := ih hl
    omega
  | case3 => simp at hl
  | case4 n sp c cs hw k j ht tail rest ih =>
    cases List.mem_cons.mp hl with
    | inl he => simp [he]
    | inr hm =>
      have hle := ih hm
      omega

theorem le_stop (n : Nat) (sp : Bool) (cs : List Char) : n ≤ (lexFrom n sp cs).stop := by
  fun_induction lexFrom n sp cs with
  | case1 => exact Nat.le_refl _
  | case2 n sp c cs hw ih => omega
  | case3 => exact Nat.le_refl _
  | case4 n sp c cs hw k j ht tail rest ih =>
    refine Nat.le_trans ?_ ih
    omega

/-- The lexemes of a text stand one after another. -/
theorem pairwise_start (n : Nat) (sp : Bool) (cs : List Char) :
    (lexFrom n sp cs).lexemes.Pairwise fun l l' => l.start < l'.start := by
  fun_induction lexFrom n sp cs with
  | case1 => exact List.Pairwise.nil
  | case2 n sp c cs hw ih => exact ih
  | case3 => exact List.Pairwise.nil
  | case4 n sp c cs hw k j ht tail rest ih =>
    refine List.Pairwise.cons (fun l hl => ?_) ih
    have hle := le_start_of_mem hl
    simp only
    omega

theorem kind_of_angle {l : Lexeme} (hl : l ∈ (lexFrom n sp cs).lexemes) (ht : l.text = "<") :
    l.kind = .symbol := by
  fun_induction lexFrom n sp cs with
  | case1 => simp at hl
  | case2 n sp c cs hw ih => exact ih hl
  | case3 => simp at hl
  | case4 n sp c cs hw k j hk tail rest ih =>
    cases List.mem_cons.mp hl with
    | inl he =>
      subst he
      have hof : String.ofList (c :: tail) = String.ofList ['<'] := ht
      have htext : c :: tail = ['<'] := String.ofList_injective hof
      obtain ⟨rfl, -⟩ := List.cons.inj htext
      have hsign : lexemeTail '<' cs = some (.symbol, 0) := rfl
      rw [hsign] at hk
      cases hk
      rfl
    | inr hm => exact ih hm

theorem drop_of_cons (h : text.drop n = gap ++ c :: (tail ++ rest)) :
    text.drop (n + gap.length + 1 + tail.length) = rest := by
  rw [Nat.add_assoc, Nat.add_assoc, ← List.drop_drop, h, ← List.drop_drop, List.drop_left,
    Nat.add_comm, List.drop_succ_cons, List.drop_left]

theorem Lexed.drop_eq (h : Lexed n sp cs ls m sp' ds) (ht : text.drop n = cs) :
    text.drop m = ds := by
  induction h with
  | nil => exact ht
  | cons hgap hc hk hl ih => exact ih (drop_of_cons ht)

theorem Lexed.length_eq (h : Lexed n sp cs ls m sp' ds) : m + ds.length = n + cs.length := by
  induction h with
  | nil => rfl
  | cons hgap hc hk hl ih =>
    simp only [List.length_append, List.length_cons]
    omega

theorem Lexed.length_pos {l : Lexeme} (h : Lexed n sp cs (l :: ls) m sp' ds) : 0 < cs.length := by
  cases h with
  | cons =>
    simp only [List.length_append, List.length_cons]
    omega

end Lexing
end PhpDoc
