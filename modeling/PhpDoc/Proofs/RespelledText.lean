import Mathlib.Data.List.Forall2
import PhpDoc.Proofs.Relexing
import PhpDoc.Proofs.RespelledGrammar
/-!
Texts whose words are respelled. Such a text is cut into the respelled lexemes, and respelling does
not change it again.
-/
namespace PhpDoc

namespace Words

theorem respell_respell (w : String) : respell (respell w) = respell w := by
  obtain he | hm := respell_cases w
  · rw [he, he]
  · have hall : ∀ r ∈ recommended, respell r.2 = r.2 := by decide
    exact hall _ hm

end Words

theorem TypedTag.respell_cases (words : List Nat) (l : Lexeme) :
    respell words l = l.text ∨ (l.text, respell words l) ∈ Words.recommended := by
  unfold respell
  split
  · exact Words.respell_cases l.text
  · exact Or.inl rfl

namespace Lexing
variable {c d : Char} {cs ds rest rest' tail gap text : List Char} {k : LexemeKind} {n m n' : Nat}
  {sp sp' : Bool} {ls : List Lexeme} {words : List Nat} {l : Lexeme}

theorem bounds_of_isWord (hc : isWord c = true) : 48 ≤ c.toNat ∧ c.toNat ≤ 122 := by
  simp only [isWord, Char.isAlphanum, isAlpha_eq, Char.isDigit, Bool.or_eq_true, isUpper_iff,
    isLower_iff, Bool.and_eq_true, decide_eq_true_eq, beq_iff_eq, ge_iff_le,
    UInt32.le_iff_toNat_le] at hc
  obtain ((h | h) | h) | rfl := hc
  · omega
  · omega
  · simp at h
    omega
  · decide

theorem bounds_of_isWhiteSpace (hc : Text.isWhiteSpace c = true) : c.toNat ≤ 32 ∨ 133 ≤ c.toNat := by
  simp only [Text.isWhiteSpace, Bool.or_eq_true, Bool.and_eq_true, decide_eq_true_eq,
    beq_iff_eq] at hc
  omega

theorem bounds_of_continuesName (hc : continuesName c = true) : 45 ≤ c.toNat ∧ c.toNat ≤ 122 := by
  simp only [continuesName, Bool.or_eq_true, beq_iff_eq] at hc
  rcases hc with (hw | rfl) | rfl
  · have := bounds_of_isWord hw
    omega
  · decide
  · decide

theorem isWhiteSpace_of_continuesName (hc : continuesName c = true) :
    Text.isWhiteSpace c = false := by
  by_contra hw
  have hname := bounds_of_continuesName hc
  have hwhite := bounds_of_isWhiteSpace (c := c) (by simpa using hw)
  omega

theorem isDigits_of_not_isWord (hc : isWord c = false) : isDigits c = false ∧ c.isDigit = false := by
  simp only [isWord, Char.isAlphanum, Bool.or_eq_false_iff] at hc
  simp [isDigits, hc.1.2, hc.2]

theorem alike_of_heads (hw : isWord c = isWord d) (hn : continuesName c = continuesName d)
    (hs : isDigits c = isDigits d) (hd : c.isDigit = d.isDigit) (hc₁ : c ≠ '.') (hd₁ : d ≠ '.')
    (hc₂ : c ≠ ':') (hd₂ : d ≠ ':') : Alike (c :: cs) (d :: ds) := by
  refine ⟨hw, hn, hs, hd, ?_, ?_, ?_⟩
  · simp [hc₁, hd₁]
  · simp [beq_false_of_ne hc₁, beq_false_of_ne hd₁]
  · simp [hc₂, hd₂]

/-- No lexeme goes on with white space. -/
theorem alike_white (hc : Text.isWhiteSpace c = true) (hd : Text.isWhiteSpace d = true) :
    Alike (c :: cs) (d :: ds) := by
  have hall : ∀ e : Char, Text.isWhiteSpace e = true →
      isWord e = false ∧ continuesName e = false ∧ e ≠ '.' ∧ e ≠ ':' := by
    intro e he
    have hb := bounds_of_isWhiteSpace he
    have hn : continuesName e = false :=
      Bool.eq_false_iff.mpr fun hn => by simp [isWhiteSpace_of_continuesName hn] at he
    have hne : ∀ x : Char, 33 ≤ x.toNat ∧ x.toNat ≤ 132 → e ≠ x := by
      rintro x hx rfl
      omega
    refine ⟨?_, hn, hne '.' (by decide), hne ':' (by decide)⟩
    simp only [continuesName, Bool.or_eq_false_iff] at hn
    exact hn.1.1
  obtain ⟨hc₁, hc₂, hc₃, hc₄⟩ := hall c hc
  obtain ⟨hd₁, hd₂, hd₃, hd₄⟩ := hall d hd
  obtain ⟨hc₅, hc₆⟩ := isDigits_of_not_isWord hc₁
  obtain ⟨hd₅, hd₆⟩ := isDigits_of_not_isWord hd₁
  exact alike_of_heads (hc₁.trans hd₁.symm) (hc₂.trans hd₂.symm) (hc₅.trans hd₅.symm)
    (hc₆.trans hd₆.symm) hc₃ hd₃ hc₄ hd₄

theorem Alike.cons (ha : Alike cs ds) : Alike (c :: cs) (c :: ds) := by
  refine ⟨rfl, rfl, rfl, rfl, rfl, ?_, rfl⟩
  rw [take_two_cons, take_two_cons, ha.dot]

theorem Alike.append (ha : Alike cs ds) : Alike (tail ++ cs) (tail ++ ds) := by
  induction tail with
  | nil => exact ha
  | cons c tail ih => exact ih.cons

def isSmallWord : List Char → Bool
  | [] => false
  | c :: cs => c.isLower && cs.all continuesName && !Text.isBlank (cs.getLastD c)

theorem alike_small (hc : c.isLower = true) (hd : d.isLower = true) : Alike (c :: cs) (d :: ds) := by
  have hall : ∀ e : Char, e.isLower = true → isWord e = true ∧ continuesName e = true ∧
      isDigits e = false ∧ e.isDigit = false ∧ e ≠ '.' ∧ e ≠ ':' := by
    intro e he
    have hb : 97 ≤ e.toNat ∧ e.toNat ≤ 122 := isLower_iff.mp he
    have hw : isWord e = true := by simp [isWord, Char.isAlphanum, isAlpha_eq, he]
    have hd : e.isDigit = false := by
      simp only [Char.isDigit, ge_iff_le, UInt32.le_iff_toNat_le, Bool.and_eq_false_iff,
        decide_eq_false_iff_not]
      right
      simp
      omega
    have hne : ∀ x : Char, x.toNat ≤ 96 → e ≠ x := by
      rintro x hx rfl
      omega
    refine ⟨hw, by simp [continuesName, hw], ?_, hd, hne '.' (by decide), hne ':' (by decide)⟩
    simp [isDigits, hd, hne '_' (by decide)]
  obtain ⟨hc₁, hc₂, hc₃, hc₄, hc₅, hc₆⟩ := hall c hc
  obtain ⟨hd₁, hd₂, hd₃, hd₄, hd₅, hd₆⟩ := hall d hd
  exact alike_of_heads (hc₁.trans hd₁.symm) (hc₂.trans hd₂.symm) (hc₃.trans hd₃.symm)
    (hc₄.trans hd₄.symm) hc₅ hd₅ hc₆ hd₆

theorem isSmallWord_of_recommended {v w : String} (h : (v, w) ∈ Words.recommended) :
    isSmallWord v.toList = true ∧ isSmallWord w.toList = true := by
  have hall : ∀ r ∈ Words.recommended,
      isSmallWord r.1.toList = true ∧ isSmallWord r.2.toList = true := by decide
  exact hall _ h

theorem isSmallWord_iff : isSmallWord cs = true ↔ ∃ c tail, cs = c :: tail ∧ c.isLower = true ∧
    (∀ d ∈ tail, continuesName d = true) ∧ Text.isBlank (tail.getLastD c) = false := by
  cases cs with
  | nil => simp [isSmallWord]
  | cons c cs =>
    simp only [isSmallWord, Bool.and_eq_true, List.all_eq_true, Bool.not_eq_true', and_assoc,
      List.cons.injEq]
    refine ⟨fun h => ⟨c, cs, rfl, rfl, h⟩, ?_⟩
    rintro ⟨_, _, rfl, rfl, h⟩
    exact h

theorem beginsName_of_isLower (hc : c.isLower = true) : beginsName c = true := by
  simp [beginsName, isAlpha_eq, hc]

/-- A respelled lexeme begins like the lexeme. -/
theorem alike_respell (words : List Nat) (ha : Alike rest rest') (l : Lexeme) :
    Alike (l.text.toList ++ rest) ((TypedTag.respell words l).toList ++ rest') := by
  obtain he | hm := TypedTag.respell_cases words l
  · rw [he]
    exact ha.append
  · obtain ⟨hv, hw⟩ := isSmallWord_of_recommended hm
    obtain ⟨c, cs, hc, hlow, -⟩ := isSmallWord_iff.mp hv
    obtain ⟨d, ds, hd, hlow', -⟩ := isSmallWord_iff.mp hw
    rw [hc, hd]
    exact alike_small hlow hlow'

/-- A respelled lexeme is cut off where the lexeme is. -/
theorem lexemeTail_respell (words : List Nat) (ha : Alike rest rest') (hc : Text.isWhiteSpace c = false)
    (ht : lexemeTail c (tail ++ rest) = some (k, tail.length)) (hl : l.text = String.ofList (c :: tail)) :
    ∃ c' tail', (TypedTag.respell words l).toList = c' :: tail' ∧ Text.isWhiteSpace c' = false ∧
      lexemeTail c' (tail' ++ rest') = some (k, tail'.length) ∧
      Text.isBlank (tail'.getLastD c') = Text.isBlank (tail.getLastD c) := by
  have hchars : l.text.toList = c :: tail := by rw [hl, String.toList_ofList]
  obtain he | hm := TypedTag.respell_cases words l
  · exact ⟨c, tail, by rw [he, hchars], hc, lexemeTail_endsToo ha.endsToo ht, rfl⟩
  · obtain ⟨hv, hw⟩ := isSmallWord_of_recommended hm
    obtain ⟨_, _, hc₁, hlow, -, hlast⟩ := isSmallWord_iff.mp hv
    obtain ⟨d, ds, hd, hlow', hds, hlast'⟩ := isSmallWord_iff.mp hw
    obtain ⟨rfl, rfl⟩ := List.cons.inj (hchars.symm.trans hc₁)
    rw [lexemeTail_name (beginsName_of_isLower hlow), Option.some.injEq, Prod.mk.injEq,
      run_append] at ht
    refine ⟨d, ds, hd, isWhiteSpace_of_beginsName (beginsName_of_isLower hlow'), ?_,
      hlast'.trans hlast.symm⟩
    rw [lexemeTail_name (beginsName_of_isLower hlow'), Option.some.injEq, Prod.mk.injEq, run_append,
      ← ha.name]
    exact ⟨ht.1, hds, ht.2.2⟩

def collapse (gap : List Char) : List Char :=
  if gap.any fun c => c = '\n' ∨ c = '\r' then [' '] else gap

theorem collapse_collapse (gap : List Char) : collapse (collapse gap) = collapse gap := by
  unfold collapse
  split
  · rfl
  · rfl

theorem collapse_white (hgap : ∀ d ∈ gap, Text.isWhiteSpace d = true) :
    ∀ d ∈ collapse gap, Text.isWhiteSpace d = true := by
  unfold collapse
  split
  · simp only [List.mem_singleton, forall_eq]
    decide
  · exact hgap

theorem collapse_eq_nil : collapse gap = [] ↔ gap = [] := by
  unfold collapse
  split
  · next h =>
    refine iff_of_false (by simp) ?_
    rintro rfl
    simp at h
  · rfl

theorem gap_eq_collapse (ht : text.drop n = gap ++ rest) :
    TypedTag.gap text n (n + gap.length) = collapse gap := by
  have hbetween : (text.take (n + gap.length)).drop n = gap := by
    rw [List.drop_take, ht, Nat.add_sub_cancel_left, List.take_left]
  unfold TypedTag.gap collapse
  rw [hbetween]

theorem alike_collapse (ha : Alike cs ds) (hgap : ∀ d ∈ gap, Text.isWhiteSpace d = true) :
    Alike (gap ++ cs) (collapse gap ++ ds) := by
  cases hg : gap with
  | nil => exact ha
  | cons c gap' =>
    cases hg' : collapse gap with
    | nil =>
      rw [collapse_eq_nil.mp hg'] at hg
      cases hg
    | cons d gap'' =>
      rw [← hg, hg', hg]
      exact alike_white (hgap c (by simp [hg])) (collapse_white hgap d (by simp [hg']))

def Respelt (words : List Nat) (l l' : Lexeme) : Prop :=
  l'.kind = l.kind ∧ l'.spaced = l.spaced ∧ l'.text = TypedTag.respell words l

/-- The lexeme that is cut off at the front ends where its characters do. -/
theorem stop_eq (k : LexemeKind) (b : Bool) :
    (⟨k, n + gap.length, String.ofList (c :: tail), b⟩ : Lexeme).stop =
      n + gap.length + 1 + tail.length := by
  simp only [Lexeme.stop, String.length_ofList, List.length_cons]
  omega

/-- A respelled text begins like the text. -/
theorem Lexed.alike (words : List Nat) (h : Lexed n sp cs ls m sp' ds) (ht : text.drop n = cs) :
    Alike cs (TypedTag.spellAfter text words n ls ++ ds) := by
  induction h with
  | nil => exact Alike.refl _
  | @cons n m sp sp' gap tail rest ds c k ls hgap hc hk hl ih =>
    have ha := alike_respell words (ih (drop_of_cons ht))
      ⟨k, n + gap.length, String.ofList (c :: tail), sp || !gap.isEmpty⟩
    rw [TypedTag.spellAfter, gap_eq_collapse ht, stop_eq, List.append_assoc, List.append_assoc]
    refine alike_collapse ?_ hgap
    simpa using ha

/-- A respelled text is cut into the respelled lexemes, and respelling does not change it again. -/
theorem Lexed.respell (words : List Nat) (h : Lexed n sp cs ls m sp' ds) (ht : text.drop n = cs)
    (n' : Nat) : ∃ ls', Lexed n' sp (TypedTag.spellAfter text words n ls ++ ds) ls'
        (n' + (TypedTag.spellAfter text words n ls).length) sp' ds ∧
      List.Forall₂ (Respelt words) ls ls' ∧
      ∀ text' words' es, text'.drop n' = TypedTag.spellAfter text words n ls ++ es →
        (∀ l ∈ ls', TypedTag.respell words' l = l.text) →
        TypedTag.spellAfter text' words' n' ls' = TypedTag.spellAfter text words n ls := by
  induction h generalizing n' with
  | nil n sp cs => exact ⟨[], .nil _ _ _, .nil, fun _ _ _ _ _ => rfl⟩
  | @cons n m sp sp' gap tail rest ds c k ls hgap hc hk hl ih =>
    have hrest := drop_of_cons ht
    obtain ⟨c', tail', hword, hc', hk', hblank⟩ :=
      @lexemeTail_respell _ _ _ _ _ ⟨k, n + gap.length, String.ofList (c :: tail), sp || !gap.isEmpty⟩
        words (hl.alike words hrest) hc hk rfl
    have hspell : TypedTag.spellAfter text words n
        (⟨k, n + gap.length, String.ofList (c :: tail), sp || !gap.isEmpty⟩ :: ls) =
        collapse gap ++ c' :: (tail' ++
          TypedTag.spellAfter text words (n + gap.length + 1 + tail.length) ls) := by
      rw [TypedTag.spellAfter, gap_eq_collapse ht, stop_eq, hword, List.append_assoc, List.cons_append]
    obtain ⟨ls', hls', hall, hagain⟩ := ih hrest (n' + (collapse gap).length + 1 + tail'.length)
    have hempty : gap.isEmpty = (collapse gap).isEmpty := by
      rw [Bool.eq_iff_iff, List.isEmpty_iff, List.isEmpty_iff, collapse_eq_nil]
    have hcat : ∀ more es, collapse gap ++ c' :: (tail' ++ more) ++ es =
        collapse gap ++ c' :: (tail' ++ (more ++ es)) := by simp
    rw [hspell, hcat]
    rw [← hblank] at hls'
    refine ⟨⟨k, n' + (collapse gap).length, String.ofList (c' :: tail'), sp || !gap.isEmpty⟩ :: ls',
      ?_, ?_, fun text' words' es ht' hset => ?_⟩
    · have hlen : n' + (collapse gap ++ c' :: (tail' ++
          TypedTag.spellAfter text words (n + gap.length + 1 + tail.length) ls)).length =
          n' + (collapse gap).length + 1 + tail'.length +
            (TypedTag.spellAfter text words (n + gap.length + 1 + tail.length) ls).length := by
        simp only [List.length_append, List.length_cons]
        omega
      rw [hlen, hempty]
      exact .cons (collapse_white hgap) hc' hk' hls'
    · refine .cons ⟨rfl, rfl, ?_⟩ hall
      rw [← hword, String.ofList_toList]
    · rw [hcat] at ht'
      have htext : (TypedTag.respell words'
          ⟨k, n' + (collapse gap).length, String.ofList (c' :: tail'), sp || !gap.isEmpty⟩).toList =
          c' :: tail' := by
        rw [hset _ (by simp), String.toList_ofList]
      rw [TypedTag.spellAfter, gap_eq_collapse ht', collapse_collapse, stop_eq, htext,
        hagain text' words' es (drop_of_cons ht') fun l hl => hset l (by simp [hl])]
      simp

variable {ls' : List Lexeme} {first : Lexeme} {ds' : List Char}

theorem toList_spell : (TypedTag.spell text words (first :: ls)).toList =
    (TypedTag.respell words first).toList ++ TypedTag.spellAfter text words first.stop ls :=
  String.toList_ofList

/-- The respelled text may stand anywhere, after other blanks than before. -/
theorem Lexed.respell_from (words : List Nat) (h : Lexed n sp cs (first :: ls) m sp' ds)
    (ht : text.drop n = cs) (blanks : List Char)
    (hb : ∀ d ∈ blanks, Text.isWhiteSpace d = true) (n' : Nat) (sp₁ : Bool) :
    ∃ first' ls', Lexed n' sp₁ (blanks ++ ((TypedTag.spell text words (first :: ls)).toList ++ ds))
        (first' :: ls') (n' + blanks.length + (TypedTag.spell text words (first :: ls)).length) sp' ds ∧
      List.Forall₂ (Respelt words) ({ first with spaced := sp₁ || !blanks.isEmpty } :: ls)
        (first' :: ls') ∧ first'.start = n' + blanks.length ∧
      ∀ text' words' es,
        text'.drop n' = blanks ++ ((TypedTag.spell text words (first :: ls)).toList ++ es) →
        (∀ l ∈ first' :: ls', TypedTag.respell words' l = l.text) →
        TypedTag.spell text' words' (first' :: ls') = TypedTag.spell text words (first :: ls) := by
  cases h with
  | @cons _ _ _ _ gap tail rest _ c k _ hgap hc hk hl =>
    have hrest := drop_of_cons ht
    obtain ⟨c', tail', hword, hc', hk', hblank⟩ :=
      @lexemeTail_respell _ _ _ _ _ ⟨k, n + gap.length, String.ofList (c :: tail), sp || !gap.isEmpty⟩
        words (hl.alike words hrest) hc hk rfl
    obtain ⟨ls', hls', hall, hagain⟩ := hl.respell words hrest (n' + blanks.length + 1 + tail'.length)
    rw [← hblank] at hls'
    have hspell : (TypedTag.spell text words
        (⟨k, n + gap.length, String.ofList (c :: tail), sp || !gap.isEmpty⟩ :: ls)).toList =
        c' :: tail' ++ TypedTag.spellAfter text words (n + gap.length + 1 + tail.length) ls := by
      rw [toList_spell, hword, stop_eq]
    generalize TypedTag.spellAfter text words (n + gap.length + 1 + tail.length) ls = S at *
    have hcat : ∀ es, blanks ++ (c' :: tail' ++ S ++ es) = blanks ++ c' :: (tail' ++ (S ++ es)) := by
      simp
    have hlen : n' + blanks.length + (c' :: tail' ++ S).length =
        n' + blanks.length + 1 + tail'.length + S.length := by
      simp only [List.length_append, List.length_cons]
      omega
    rw [← String.length_toList, hspell, hcat, hlen]
    refine ⟨_, ls', .cons hb hc' hk' hls', .cons ⟨rfl, rfl, ?_⟩ hall, rfl,
      fun text' words' es ht' hset => ?_⟩
    · exact (congrArg String.ofList hword.symm).trans String.ofList_toList
    · rw [hcat] at ht'
      rw [TypedTag.spell, hset _ List.mem_cons_self, stop_eq,
        hagain text' words' es (drop_of_cons ht') fun l hl => hset l (List.mem_cons_of_mem _ hl),
        String.toList_ofList, ← hspell, String.ofList_toList]

/-- Lexemes at new places. -/
theorem exists_place (hn : (ls.map Lexeme.start).Nodup) (h : List.Forall₂ (Respelt words) ls ls') :
    ∃ place, ls' = ls.map (Respelling.lexeme ⟨words, place⟩) := by
  induction h with
  | nil => exact ⟨id, rfl⟩
  | @cons l l' ls ls' hl _ ih =>
    obtain ⟨hout, hn⟩ := List.nodup_cons.mp hn
    obtain ⟨place, rfl⟩ := ih hn
    refine ⟨fun i => if i = l.start then l'.start else place i, ?_⟩
    rw [List.map_cons, List.cons.injEq]
    refine ⟨?_, List.map_congr_left fun k hk => ?_⟩
    · obtain ⟨hk, hs, ht⟩ := hl
      simp [Respelling.lexeme, ← hk, ← hs, ← ht]
    · have hne : k.start ≠ l.start := fun he => hout (he ▸ List.mem_map_of_mem hk)
      simp [Respelling.lexeme, hne]

theorem nodup_start (n : Nat) (sp : Bool) (cs : List Char) :
    ((lexFrom n sp cs).lexemes.map Lexeme.start).Nodup :=
  List.Pairwise.map _ (fun _ _ h => Nat.ne_of_lt h) (pairwise_start n sp cs)

/-- The last lexeme ends where the text goes on. -/
theorem Lexed.getLast?_stop (h : Lexed n sp cs ls m sp' ds) (hne : ls ≠ []) :
    ls.getLast?.map Lexeme.stop = some m := by
  induction h with
  | nil => exact (hne rfl).elim
  | @cons n m sp sp' gap tail rest ds c k ls hgap hc hk hl ih =>
    cases hl with
    | nil =>
      rw [List.getLast?_singleton, Option.map_some, stop_eq]
    | cons hgap' hc' hk' hl' =>
      rw [List.getLast?_cons_cons]
      exact ih (by simp)

theorem Lexed.le (h : Lexed n sp cs ls m sp' ds) : n ≤ m := by
  induction h with
  | nil => exact Nat.le_refl _
  | cons => omega

theorem Lexed.stop_le (h : Lexed n sp cs ls m sp' ds) : ∀ l ∈ ls, l.start < m := by
  induction h with
  | nil => simp
  | @cons n m sp sp' gap tail rest ds c k ls hgap hc hk hl ih =>
    have hle := hl.le
    simp only [List.mem_cons, forall_eq_or_imp]
    exact ⟨by omega, ih⟩

theorem ready_lexFrom (n : Nat) (sp : Bool) (cs : List Char) :
    Reader.Ready ⟨(lexFrom n sp cs).lexemes, []⟩ :=
  ⟨nodup_start n sp cs, fun _ _ => List.not_mem_nil, fun _ hl => kind_of_angle hl⟩

/-- The lexemes after place `m` are not respelled. -/
theorem respelt_shift (hw : ∀ w ∈ words, w < m) (m' : Nat) (ls : List Lexeme) :
    List.Forall₂ (Respelt words) (ls.map (shift m)) (ls.map (shift m')) := by
  rw [List.forall₂_map_left_iff, List.forall₂_map_right_iff, List.forall₂_same]
  intro l _
  refine ⟨rfl, rfl, ?_⟩
  have hout : l.start + m ∉ words := fun hm => by
    have hlt := hw _ hm
    omega
  simp [TypedTag.respell, shift, hout]

def respelled (text : List Char) (words : List Nat) (first : Lexeme) (ls : List Lexeme)
    (ds : List Char) : List Char :=
  text.take first.start ++ (TypedTag.spell text words (first :: ls)).toList ++ ds

/-- The lexemes before a text are the same before another one where they end, too. -/
theorem Lexed.replace (h : Lexed n sp cs ls m sp' ds) (he : EndsToo ds ds') :
    ∃ front, cs = front ++ ds ∧ Lexed n sp (front ++ ds') ls m sp' ds' := by
  induction h with
  | nil n sp cs => exact ⟨[], rfl, .nil _ _ _⟩
  | @cons n m sp sp' gap tail rest ds c k ls hgap hc ht hl ih =>
    obtain ⟨front, rfl, hls⟩ := ih he
    refine ⟨gap ++ c :: (tail ++ front), by simp, ?_⟩
    have hcat : gap ++ c :: (tail ++ front) ++ ds' = gap ++ c :: (tail ++ (front ++ ds')) := by simp
    rw [hcat]
    exact .cons hgap hc (lexemeTail_endsToo he.append ht) hls

/-- A text is cut into respelled lexemes, of which the last one before `ds` ends at place `m`; `again`
says that they are in their recommended spelling. -/
structure Recut (text : List Char) (words : List Nat) (first : Lexeme) (ls : List Lexeme)
    (ds : List Char) (n : Nat) (sp : Bool) (cs : List Char) (m : Nat) (sp' : Bool)
    (f : Lexeme → Lexeme) : Prop where
  split : respelled text words first ls ds = text.take n ++ cs
  drop : (respelled text words first ls ds).drop n = cs
  alike : Alike (text.drop n) cs
  lexed : Lexed n sp cs ((first :: ls).map f) m sp' ds
  start : (f first).start = first.start
  stop : m = first.start + (TypedTag.spell text words (first :: ls)).length
  again : ∀ words', (∀ l ∈ (first :: ls).map f, TypedTag.respell words' l = l.text) →
    TypedTag.spell (respelled text words first ls ds) words' ((first :: ls).map f) =
      TypedTag.spell text words (first :: ls)

theorem Lexed.recut (h : Lexed n sp cs (first :: ls) m sp' ds) (ht : text.drop n = cs)
    (hw : ∀ w ∈ words, w < m) : ∃ place cs' m',
      Recut text words first ls ds n sp cs' m' sp' (Respelling.lexeme ⟨words, place⟩) ∧
      (lexFrom m sp' ds).lexemes.map (Respelling.lexeme ⟨words, place⟩) =
        (lexFrom m' sp' ds).lexemes := by
  have hnodup := nodup_start n sp cs
  rw [h.lexFrom_eq] at hnodup
  have hfrom := fun blanks hb => h.respell_from words ht blanks hb n sp
  cases h with
  | @cons _ _ _ _ gap tail rest _ c k _ hgap hc hk hl =>
    obtain ⟨first', ls', hlexed, hall, hstart, hagain⟩ := hfrom gap hgap
    have hsplit : respelled text words
        ⟨k, n + gap.length, String.ofList (c :: tail), sp || !gap.isEmpty⟩ ls ds =
        text.take n ++ (gap ++ ((TypedTag.spell text words
          (⟨k, n + gap.length, String.ofList (c :: tail), sp || !gap.isEmpty⟩ :: ls)).toList ++
            ds)) := by
      rw [respelled, List.take_add, ht, List.take_left]
      simp
    have hdrop : (respelled text words
        ⟨k, n + gap.length, String.ofList (c :: tail), sp || !gap.isEmpty⟩ ls ds).drop n =
        gap ++ ((TypedTag.spell text words
          (⟨k, n + gap.length, String.ofList (c :: tail), sp || !gap.isEmpty⟩ :: ls)).toList ++
            ds) := by
      have hn : n ≤ text.length := by
        have hlen := congrArg List.length ht
        simp only [List.length_drop, List.length_append, List.length_cons] at hlen
        omega
      rw [hsplit, List.drop_left' (List.length_take_of_le hn)]
    have halike := alike_respell words (hl.alike words (drop_of_cons ht))
      ⟨k, n + gap.length, String.ofList (c :: tail), sp || !gap.isEmpty⟩
    rw [← List.append_assoc (TypedTag.respell words _).toList, ← stop_eq k, ← toList_spell,
      String.toList_ofList] at halike
    have hstay : List.Forall₂ (Respelt words) (lexFrom m sp' ds).lexemes
        (lexFrom (n + gap.length + (TypedTag.spell text words
          (⟨k, n + gap.length, String.ofList (c :: tail), sp || !gap.isEmpty⟩ :: ls)).length)
          sp' ds).lexemes := by
      rw [← Nat.zero_add m, ← Nat.zero_add (n + gap.length + _), lexFrom_shift, lexFrom_shift]
      exact respelt_shift hw _ _
    obtain ⟨place, hplace⟩ := exists_place hnodup (List.rel_append hall hstay)
    rw [List.map_append] at hplace
    obtain ⟨hread, hahead⟩ := List.append_inj hplace
      (hall.length_eq.symm.trans (List.length_map _).symm)
    refine ⟨place, _, _, ⟨hsplit, hdrop, ?_, hread ▸ hlexed, ?_, rfl, ?_⟩, hahead.symm⟩
    · rw [ht]
      exact halike.append
    · exact (congrArg Lexeme.start (List.cons.inj hread).1).symm.trans hstart
    · rw [← hread]
      exact fun words' => hagain _ words' ds hdrop

end Lexing
end PhpDoc
