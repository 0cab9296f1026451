import PhpDoc.Type.Lexeme
import PhpDoc.Proofs.SuperTypes
/-!
The lexemes of a text. Names are made of the characters of a name, and only names begin with a
backslash.
-/
namespace PhpDoc

def Lexing.IsName (s : String) : Prop :=
  ∃ c cs, s.toList = c :: cs ∧ beginsName c = true ∧ ∀ d ∈ cs, continuesName d = true

def Lexeme.IsProper (l : Lexeme) : Prop :=
  l.kind = .name ∨ IsAbsolute l.text → Lexing.IsName l.text

namespace Lexing
open Text (run mem_take_run)

theorem lexemeTail_name {c : Char} {cs : List Char} (hc : beginsName c = true) :
    lexemeTail c cs = some (.name, run continuesName cs) := by
  have hd : c ≠ '$' := by
    rintro rfl
    revert hc
    decide
  unfold lexemeTail
  rw [if_neg hd, if_pos hc]

theorem continuesName_of_beginsName {c : Char} (hc : beginsName c = true) :
    continuesName c = true := by
  simp only [beginsName, Bool.or_eq_true, beq_iff_eq] at hc
  rcases hc with (h | rfl) | rfl
  · simp [continuesName, isWord, Char.isAlphanum, h]
  · decide
  · decide

/-- A lexeme that does not begin like a name is none. -/
theorem lexemeTail_ne_name {c : Char} {cs : List Char} {n : Nat} (hc : ¬beginsName c = true) :
    lexemeTail c cs ≠ some (.name, n) := by
  unfold lexemeTail
  rw [if_neg hc]
  intro h
  repeat' split at h
  all_goals simp at h

theorem isProper_of_mem_lexFrom {l : Lexeme} (start : Nat) (spaced : Bool) (cs : List Char)
    (hl : l ∈ (lexFrom start spaced cs).lexemes) : l.IsProper := by
  fun_induction lexFrom start spaced cs with
  | case1 => simp at hl
  | case2 start _ c cs _ ih => exact ih hl
  | case3 => simp at hl
  | case4 start spaced c cs _ kind n hk tail rest ih =>
    rcases List.mem_cons.mp hl with rfl | hl
    · intro hn
      have hc : beginsName c = true := by
        by_contra hc
        rcases hn with hn | hn
        · obtain rfl : kind = .name := hn
          exact lexemeTail_ne_name hc hk
        · obtain ⟨_, hcs⟩ := isAbsolute_iff.mp hn
          rw [String.toList_ofList, List.cons.injEq] at hcs
          exact hc (hcs.1 ▸ rfl)
      rw [lexemeTail_name hc, Option.some.injEq, Prod.mk.injEq] at hk
      refine ⟨c, tail, String.toList_ofList, hc, fun d hd => ?_⟩
      have ht : tail = cs.take (run continuesName cs) := by rw [hk.2]
      exact mem_take_run (ht ▸ hd)
    · exact ih hl

def Cuts (cs rest : List Char) (P : List Lexeme → Prop) : Prop :=
  ∀ start spaced, ∃ ls spaced', P ls ∧ lexFrom start spaced (cs ++ rest) =
    ⟨ls ++ (lexFrom (start + cs.length) spaced' rest).lexemes,
      (lexFrom (start + cs.length) spaced' rest).stop⟩

def EndsName (rest : List Char) : Prop :=
  ∀ c ∈ rest.head?, continuesName c = false

variable {cs ds rest : List Char} {c : Char} {s : String} {P Q : List Lexeme → Prop}

theorem Cuts.mono (h : Cuts cs rest P) (hPQ : ∀ ls, P ls → Q ls) : Cuts cs rest Q := by
  intro start spaced
  obtain ⟨ls, spaced', hP, he⟩ := h start spaced
  exact ⟨ls, spaced', hPQ ls hP, he⟩

theorem Cuts.append (h₁ : Cuts cs (ds ++ rest) P) (h₂ : Cuts ds rest Q) :
    Cuts (cs ++ ds) rest fun ls => ∃ ls₁ ls₂, ls = ls₁ ++ ls₂ ∧ P ls₁ ∧ Q ls₂ := by
  intro start spaced
  obtain ⟨ls₁, sp₁, hP, he₁⟩ := h₁ start spaced
  obtain ⟨ls₂, sp₂, hQ, he₂⟩ := h₂ (start + cs.length) sp₁
  refine ⟨ls₁ ++ ls₂, sp₂, ⟨ls₁, ls₂, rfl, hP, hQ⟩, ?_⟩
  rw [List.append_assoc, he₁, he₂, List.length_append, Nat.add_assoc, List.append_assoc]

/-- One lexeme is cut off by its first character and the length of its tail. -/
theorem cuts_of_lexemeTail {kind : LexemeKind} (hw : Text.isWhiteSpace c = false)
    (ht : lexemeTail c (cs ++ rest) = some (kind, cs.length)) :
    Cuts (c :: cs) rest fun ls =>
      ∃ l, ls = [l] ∧ l.kind = kind ∧ l.text = String.ofList (c :: cs) := by
  intro start spaced
  refine ⟨_, Text.isBlank (cs.getLastD c),
    ⟨⟨kind, start, String.ofList (c :: cs), spaced⟩, rfl, rfl, rfl⟩, ?_⟩
  rw [List.cons_append, lexFrom, if_neg (by simp [hw])]
  simp only [ht, List.take_left', List.drop_left', List.length_cons, List.singleton_append]
  rw [Nat.add_assoc, Nat.add_comm 1]

theorem isAlpha_eq (c : Char) : c.isAlpha = (c.isUpper || c.isLower) :=
  rfl

theorem isUpper_iff : c.isUpper = true ↔ 65 ≤ c.toNat ∧ c.toNat ≤ 90 := by
  change decide (c.val ≥ 'A'.val ∧ c.val ≤ 'Z'.val) = true ↔ _
  rw [decide_eq_true_eq, ge_iff_le, UInt32.le_iff_toNat_le, UInt32.le_iff_toNat_le]
  exact Iff.rfl

theorem isLower_iff : c.isLower = true ↔ 97 ≤ c.toNat ∧ c.toNat ≤ 122 := by
  change (decide (c.val ≥ 'a'.val) && decide (c.val ≤ 'z'.val)) = true ↔ _
  rw [Bool.and_eq_true, decide_eq_true_eq, decide_eq_true_eq, ge_iff_le, UInt32.le_iff_toNat_le,
    UInt32.le_iff_toNat_le]
  exact Iff.rfl

theorem bounds_of_beginsName (hc : beginsName c = true) : 65 ≤ c.toNat ∧ c.toNat ≤ 122 := by
  simp only [beginsName, isAlpha_eq, Bool.or_eq_true, isUpper_iff, isLower_iff, beq_iff_eq] at hc
  obtain ((h | h) | rfl) | rfl := hc
  · omega
  · omega
  · decide
  · decide

theorem isWhiteSpace_of_beginsName (hc : beginsName c = true) : Text.isWhiteSpace c = false := by
  have hb := bounds_of_beginsName hc
  simp only [Text.isWhiteSpace, Bool.or_eq_false_iff, Bool.and_eq_false_iff, decide_eq_false_iff_not,
    beq_eq_false_iff_ne]
  omega

theorem lexemeTail_append (hc : beginsName c = true) (hcs : ∀ d ∈ cs, continuesName d = true)
    (hr : EndsName rest) : lexemeTail c (cs ++ rest) = some (.name, cs.length) := by
  have hstop : rest.takeWhile continuesName = [] := by
    cases rest with
    | nil => rfl
    | cons d rest => simp [hr d (by simp)]
  rw [lexemeTail_name hc, run, List.takeWhile_append_of_pos hcs, hstop, List.append_nil]

theorem cuts_name (hn : IsName s) (hr : EndsName rest) :
    Cuts s.toList rest fun ls => ∃ l, ls = [l] ∧ l.kind = .name ∧ l.text = s := by
  obtain ⟨c, cs, hl, hc, hcs⟩ := hn
  have hs : String.ofList (c :: cs) = s := by
    rw [← hl, String.ofList_toList]
  rw [hl, ← hs]
  exact cuts_of_lexemeTail (isWhiteSpace_of_beginsName hc) (lexemeTail_append hc hcs hr)

/-- The signs that stand by themselves in the text of a type. -/
theorem cuts_sign (hc : c ∈ ['|', '&', '(', ')']) :
    Cuts [c] rest fun ls => ∃ l, ls = [l] ∧ l.kind = .symbol ∧ l.text = String.singleton c := by
  have hall : ∀ c ∈ ['|', '&', '(', ')'], Text.isWhiteSpace c = false ∧ c ≠ '$' ∧
      beginsName c = false ∧ c.isDigit = false ∧ ¬(c = '\'' ∨ c = '"') ∧ c ≠ '-' ∧ c ≠ '.' ∧ c ≠ ':' := by
    decide
  obtain ⟨hw, hv, hn, hd, hq, h₁, h₂, h₃⟩ := hall c hc
  refine cuts_of_lexemeTail hw ?_
  unfold lexemeTail
  rw [if_neg hv, if_neg (by simp [hn]), if_neg (by simp [hd]), if_neg hq]
  split
  · exact absurd rfl h₁
  · exact absurd rfl h₂
  · exact absurd rfl h₃
  · rfl

end Lexing

/-- Every lexeme of a text is proper. -/
theorem isProper_of_mem_lex {l : Lexeme} {s : String} (hl : l ∈ (lex s).lexemes) : l.IsProper :=
  Lexing.isProper_of_mem_lexFrom 0 false s.toList hl

end PhpDoc
