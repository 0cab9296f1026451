import PhpDoc.Proofs.Compositions
import PhpDoc.Proofs.Restyling
/-!
Types before a variable and a remark. Whatever these say, the type is read as it would be alone; the
variable and the signs before it are read as they are written, and the remark is what remains.
-/
namespace PhpDoc
open Lexing Parse

namespace Text
variable {c : Char} {cs : List Char}

theorem trimList_cons (hc : isBlank c = true) : trimList (c :: cs) = trimList cs := by
  rw [trimList, List.dropWhile_cons_of_pos hc, trimList]

end Text

namespace Lexing
variable {c : Char} {cs ds rest : List Char} {n m : Nat} {sp sp' : Bool} {x sign : String}
  {ls ls₁ ls₂ : List Lexeme} {l : Lexeme}

/-- A text is cut before a blank as it is cut alone. -/
theorem exists_lexed_before (hr : Text.trimList (cs.drop (lexFrom 0 false cs).stop) = [])
    (rest : List Char) : ∃ m sp' gap, (∀ d ∈ gap, Text.isWhiteSpace d = true) ∧
      Lexed 0 false cs (lexFrom 0 false cs).lexemes m sp' gap ∧
      Lexed 0 false (cs ++ ' ' :: rest) (lexFrom 0 false cs).lexemes m sp'
        (gap ++ ' ' :: rest) := by
  obtain ⟨m, sp', gap, hl, hwhite⟩ := exists_lexed_whole hr
  have hends : EndsToo (gap ++ []) (gap ++ ' ' :: rest) := (endsToo_of_mem (by simp) rest).append
  rw [List.append_nil] at hends
  obtain ⟨front, rfl, hfront⟩ := hl.replace hends
  refine ⟨m, sp', gap, hwhite, hl, ?_⟩
  rwa [List.append_assoc]

theorem le_getD_start (n : Nat) (sp : Bool) (cs : List Char) :
    n ≤ ((lexFrom n sp cs).lexemes.head?.map Lexeme.start).getD (lexFrom n sp cs).stop := by
  cases hh : (lexFrom n sp cs).lexemes.head? with
  | none => exact le_stop _ _ _
  | some l => exact le_start_of_mem (List.mem_of_head? hh)

/-- What remains of a text is all of it but for the blanks around it. -/
theorem trimList_drop_start (n : Nat) (sp : Bool) (cs : List Char) :
    Text.trimList (cs.drop ((((lexFrom n sp cs).lexemes.head?.map Lexeme.start).getD
      (lexFrom n sp cs).stop) - n)) = Text.trimList cs := by
  fun_induction lexFrom n sp cs with
  | case1 => simp
  | case2 n sp c cs hw ih =>
    have hle := le_getD_start (n + 1) true cs
    generalize ((lexFrom (n + 1) true cs).lexemes.head?.map Lexeme.start).getD _ = k at hle ih ⊢
    obtain ⟨i, rfl⟩ := Nat.exists_eq_add_of_le hle
    have hi : n + 1 + i - n = n + 1 + i - (n + 1) + 1 := by omega
    rw [hi, List.drop_succ_cons, ih, Text.trimList_cons (Text.isBlank_of_isWhiteSpace hw)]
  | case3 n sp c cs hw ht => simp
  | case4 n sp c cs hw k j ht tail rest ih => simp

/-- A lexeme after a blank is set off by it. -/
theorem isDelimited_of_blank (n : Nat) (cs : List Char) :
    TypedTag.isDelimited (lexFrom n true cs).lexemes.head? = true := by
  generalize hsp : true = sp
  fun_induction lexFrom n sp cs with
  | case1 | case3 => exact hsp
  | case2 n sp c cs hw ih => simpa [← hsp] using ih rfl
  | case4 n sp c cs hw k j ht tail rest ih => simp [TypedTag.isDelimited, ← hsp]

def SpellsSign (sign x : String) (ls : List Lexeme) : Prop :=
  (x = "" ∧ ls = []) ∨ (x = sign ∧ ∃ l, ls = [l] ∧ l.text = sign)

theorem cuts_optional (h : Cuts sign.toList rest fun ls => ∃ l, ls = [l] ∧ l.text = sign)
    (hx : x = "" ∨ x = sign) : Cuts x.toList rest (SpellsSign sign x) := by
  rcases hx with rfl | rfl
  · exact fun start spaced => ⟨[], spaced, .inl ⟨rfl, rfl⟩, rfl⟩
  · exact h.mono fun ls hls => .inr ⟨rfl, hls⟩

theorem cuts_reference (hx : x = "" ∨ x = "&") : Cuts x.toList rest (SpellsSign "&" x) := by
  refine cuts_optional ((cuts_sign (c := '&') (by simp)).mono ?_) hx
  rintro _ ⟨l, rfl, -, hl⟩
  exact ⟨l, rfl, hl⟩

theorem cuts_splat (hx : x = "" ∨ x = "...") : Cuts x.toList rest (SpellsSign "..." x) := by
  refine cuts_optional ?_ hx
  have hcut : Cuts "...".toList rest fun ls => ∃ l, ls = [l] ∧ l.kind = .splat ∧ l.text = "..." :=
    cuts_of_lexemeTail (by decide) rfl
  refine hcut.mono ?_
  rintro _ ⟨l, rfl, -, hl⟩
  exact ⟨l, rfl, hl⟩

def IsVariable (name : String) : Prop :=
  ∃ tail, name.toList = '$' :: tail ∧ ∀ d ∈ tail, isWord d = true

theorem cuts_variable {name : String} (hn : IsVariable name) :
    Cuts name.toList (' ' :: rest) fun ls =>
      ∃ l, ls = [l] ∧ l.kind = .variable ∧ l.text = name := by
  obtain ⟨tail, hname, htail⟩ := hn
  have hrun : Text.run isWord (tail ++ ' ' :: rest) = tail.length := run_append.mpr ⟨htail, rfl⟩
  have ht : lexemeTail '$' (tail ++ ' ' :: rest) = some (.variable, tail.length) := by
    rw [← hrun]
    rfl
  have hs : String.ofList ('$' :: tail) = name := by
    rw [← hname, String.ofList_toList]
  rw [hname, ← hs]
  exact cuts_of_lexemeTail (by decide) ht

/-- Signs, a variable and a remark after it are cut one after another. -/
theorem lexFrom_variable {y name : String} (hx : x = "" ∨ x = "&") (hy : y = "" ∨ y = "...")
    (hn : IsVariable name) (remark : List Char) (n : Nat) : ∃ ls₁ ls₂ l,
      SpellsSign "&" x ls₁ ∧ SpellsSign "..." y ls₂ ∧ l.kind = .variable ∧ l.text = name ∧
      lexFrom n true ((x ++ y ++ name).toList ++ ' ' :: remark) =
        ⟨ls₁ ++ (ls₂ ++ l :: (lexFrom (n + (x ++ y ++ name).length + 1) true remark).lexemes),
          (lexFrom (n + (x ++ y ++ name).length + 1) true remark).stop⟩ := by
  have hname : Cuts name.toList (' ' :: remark) _ := cuts_variable hn
  obtain ⟨_, sp, ⟨ls₁, _, rfl, h₁, ls₂, _, rfl, h₂, l, rfl, hk, hl⟩, he⟩ :=
    (cuts_reference hx).append ((cuts_splat hy).append hname) n true
  have htext : (x ++ y ++ name).toList = x.toList ++ (y.toList ++ name.toList) := by simp
  have hlength : (x ++ y ++ name).length = (x.toList ++ (y.toList ++ name.toList)).length := by
    rw [← htext, String.length_toList]
  refine ⟨ls₁, ls₂, l, h₁, h₂, hk, hl, ?_⟩
  rw [htext, he, hlength, lexFrom, if_pos (by decide)]
  simp

/-- A variable with signs before it does not go on a type. -/
theorem stops_variable (h₁ : SpellsSign "&" x ls₁) {y : String} (h₂ : SpellsSign "..." y ls₂)
    (hk : l.kind = .variable) (hd : IsVariable l.text) : Stops (ls₁ ++ (ls₂ ++ l :: ls)) := by
  obtain ⟨tail, htext, -⟩ := hd
  have hsign : l.text ∉ goingOn := by
    have hall : ∀ w ∈ goingOn, w.toList.head? ≠ some '$' := by decide
    exact fun hm => hall _ hm (by rw [htext, List.head?_cons])
  have hname : ¬IsAbsolute l.text := by simp [IsAbsolute, Text.beginsWith, htext]
  have hne : l.text ≠ "&" := fun he => by simp [he] at htext
  rcases h₁ with ⟨-, rfl⟩ | ⟨-, r, rfl, hr⟩
  all_goals rcases h₂ with ⟨-, rfl⟩ | ⟨-, s, rfl, hs⟩
  · exact stops_cons hsign hname (by simp [Grammar.joinsAhead, Reader.shows, hne])
  · exact stops_cons (by rw [hs]; decide) (by rw [hs]; decide)
      (by simp [Grammar.joinsAhead, Reader.shows, hs])
  · exact stops_cons (by rw [hr]; decide) (by rw [hr]; decide)
      (by simp [Grammar.joinsAhead, Reader.shows, hr, hk])
  · exact stops_cons (by rw [hr]; decide) (by rw [hr]; decide)
      (by simp [Grammar.joinsAhead, Reader.shows, hr, hs])

end Lexing

namespace TypedTag
variable {c : Context} {e : Extent} {text text' cs : List Char} {n m : Nat} {sp : Bool} {l : Lexeme}
  {ls ls₁ ls₂ rest : List Lexeme} {words : List Nat} {x y sgn : String} {t : DocType}

theorem sign_spells (h : SpellsSign sgn x ls) (he : e.hasModifiers = true)
    (hne : ∀ l ∈ rest.head?, l.text ≠ sgn) :
    sign e sgn ⟨ls ++ rest, words⟩ = (x, ⟨rest, words⟩) := by
  rcases h with ⟨rfl, rfl⟩ | ⟨rfl, l, rfl, hl⟩
  · cases rest with
    | nil => rfl
    | cons l rest => simp [sign, hne l rfl]
  · simp [sign, he, hl]

/-- A variable is read with the signs before it. -/
theorem readVariable_spells (h₁ : SpellsSign "&" x ls₁) (h₂ : SpellsSign "..." y ls₂)
    (hk : l.kind = .variable) (hd : IsVariable l.text) (hl : isDelimited ls.head? = true) :
    readVariable .modifiers ⟨ls₁ ++ (ls₂ ++ l :: ls), words⟩ =
      some ((l.text, x ++ y), ⟨ls, words⟩) := by
  obtain ⟨tail, htext, -⟩ := hd
  have hdots : ∀ k ∈ (l :: ls).head?, k.text ≠ "..." := by
    rintro _ ⟨⟩ he
    simp [he] at htext
  have hreference : ∀ k ∈ (ls₂ ++ l :: ls).head?, k.text ≠ "&" := by
    rcases h₂ with ⟨-, rfl⟩ | ⟨-, s, rfl, hs⟩
    · rintro _ ⟨⟩ he
      simp [he] at htext
    · rintro _ ⟨⟩
      rw [hs]
      decide
  rw [readVariable_eq, sign_spells h₁ rfl hreference, sign_spells h₂ rfl hdots]
  simp [hk, hl]

theorem endsType_variable (h₁ : SpellsSign "&" x ls₁) (h₂ : SpellsSign "..." y ls₂)
    (hk : l.kind = .variable) : endsType .modifiers (ls₁ ++ (ls₂ ++ l :: ls)).head? = true := by
  rcases h₁ with ⟨-, rfl⟩ | ⟨-, r, rfl, hr⟩
  · rcases h₂ with ⟨-, rfl⟩ | ⟨-, s, rfl, hs⟩
    · simp [endsType, Extent.hasVariable, hk]
    · simp [endsType, Extent.hasVariable, hs]
  · simp [endsType, Extent.hasVariable, hr]

/-- What remains before a lexeme is all of the text before it. -/
theorem remainderOf_lexFrom (hd : text.drop n = cs) :
    remainderOf text (lexFrom n sp cs).stop ⟨(lexFrom n sp cs).lexemes, words⟩ =
      String.ofList (Text.trimList cs) := by
  rw [remainderOf, ← trimList_drop_start n sp cs, ← hd, List.drop_drop,
    Nat.add_sub_cancel' (le_getD_start _ _ _)]

theorem gap_congr (h : text.take m = text'.take m) (start : Nat) {stop : Nat} (hs : stop ≤ m) :
    gap text start stop = gap text' start stop := by
  have htake : text.take stop = text'.take stop := by
    rw [← Nat.min_eq_left hs, ← List.take_take, h, List.take_take]
  rw [gap, gap, htake]

theorem spellAfter_congr (h : text.take m = text'.take m) (words : List Nat) (last : Nat)
    (hls : ∀ l ∈ ls, l.start < m) :
    spellAfter text words last ls = spellAfter text' words last ls := by
  induction ls generalizing last with
  | nil => rfl
  | cons l ls ih =>
    rw [spellAfter, spellAfter, gap_congr h last (hls l (by simp)).le,
      ih l.stop fun k hk => hls k (by simp [hk])]

theorem spell_congr (h : text.take m = text'.take m) (words : List Nat)
    (hls : ∀ l ∈ ls, l.start < m) : spell text words ls = spell text' words ls := by
  cases ls with
  | nil => rfl
  | cons l ls => rw [spell, spell, spellAfter_congr h words l.stop fun k hk => hls k (by simp [hk])]

/-- A type as a whole is read as it would be alone where it is set off from lexemes with which no
type goes on. -/
theorem ReadsAll.read_before {text whole : String} {rest : List Char} (h : ReadsAll c text t)
    (hw : whole.toList = text.toList ++ ' ' :: rest)
    (hs : ∀ n, Stops (lexFrom n true rest).lexemes)
    (he : ∀ n, endsType e (lexFrom n true rest).lexemes.head? = true) : ∃ reading,
      read c text =
        { type := some reading.type
          nullable := reading.type.isNullable
          spelled := some reading.spelled
          span := some reading.span } ∧
      read c whole e = completed c e reading rest (lexFrom 0 true rest) := by
  obtain ⟨reading, words, hr, -⟩ := h.exists_reading
  obtain ⟨m, sp, gap, hwhite, hl, hl'⟩ := exists_lexed_before h.trimList_drop rest
  obtain ⟨first, others, htype, hread, -, hspelled, hspan⟩ := readType_eq_ok.mp hr
  have hls : (lex text).lexemes = first :: others := by simpa using hread
  rw [← lex, hls] at hl hl'
  have hlength : m + gap.length = text.toList.length := by
    rw [hl.length_eq, Nat.zero_add]
  have hlex : lex whole = ⟨first :: others ++ (lexFrom (text.toList.length + 1) true rest).lexemes,
      (lexFrom (text.toList.length + 1) true rest).stop⟩ := by
    rw [lex, hw, hl'.lexFrom_eq, lexFrom_gap hwhite, lexFrom, if_pos (by decide), hlength]
  have hshift := lexFrom_shift (text.toList.length + 1) 0 true rest
  have htake : text.toList.take m = whole.toList.take m := by
    rw [hw, List.take_append_of_le_length (by omega)]
  have hread' : readType c whole.toList e ⟨(lex whole).lexemes, []⟩ =
      .ok (reading, ⟨(lexFrom (text.toList.length + 1) true rest).lexemes, words⟩) := by
    rw [hls] at htype
    refine readType_eq_ok.mpr ⟨first, others, ?_, ?_, he _, ?_, hspan⟩
    · rw [hlex]
      exact Grammar.type_before (hs _) htype
    · rw [hlex]
      exact List.take_left' (by simp only [List.length_append, Nat.add_sub_cancel])
    · rw [hspelled]
      exact spell_congr htake words hl.stop_le
  refine ⟨reading, ?_, read_eq_completed (m := text.toList.length + 1) hread' ⟨?_, ?_, ?_⟩⟩
  · have hremainder := (remainder_read hr).symm.trans h.remainder
    simp [read, hr, hremainder, Except.toOption, Extent.hasVariable]
  · rw [hw, List.append_cons]
    exact List.drop_left' (by simp)
  · rw [Nat.zero_add] at hshift
    rw [hshift]
  · rw [Nat.zero_add] at hshift
    rw [hlex, hshift]

theorem completed_variable {reading : Reading} {ds : List Char} {rest : Lexing} {after : Reader}
    {name : String} (h : readVariable .modifiers ⟨rest.lexemes, []⟩ = some ((name, x), after)) :
    completed c .modifiers reading ds rest =
      { type := some reading.type
        name := some name
        remainder := remainderOf ds rest.stop after
        nullable := reading.type.isNullable
        modifiers := x
        spelled := some reading.spelled
        span := some reading.span } := by
  simp [completed, h, Extent.hasVariable]

theorem ReadsAll.read_variable {text name : String} (h : ReadsAll c text t)
    (hx : x = "" ∨ x = "&") (hy : y = "" ∨ y = "...") (hn : IsVariable name) (remark : String) :
    read c (text ++ " " ++ (x ++ y) ++ name ++ " " ++ remark) .modifiers =
      { read c text with
        name := some name, modifiers := x ++ y, remainder := Text.trim remark } := by
  have hahead := lexFrom_variable hx hy hn remark.toList
  have hstops : ∀ n,
      Stops (lexFrom n true ((x ++ y ++ name).toList ++ ' ' :: remark.toList)).lexemes := by
    intro n
    obtain ⟨ls₁, ls₂, l, h₁, h₂, hk, rfl, he⟩ := hahead n
    rw [he]
    exact stops_variable h₁ h₂ hk hn
  have hends : ∀ n, endsType .modifiers
      (lexFrom n true ((x ++ y ++ name).toList ++ ' ' :: remark.toList)).lexemes.head? = true := by
    intro n
    obtain ⟨ls₁, ls₂, l, h₁, h₂, hk, rfl, he⟩ := hahead n
    rw [he]
    exact endsType_variable h₁ h₂ hk
  have hwhole : (text ++ " " ++ (x ++ y) ++ name ++ " " ++ remark).toList =
      text.toList ++ ' ' :: ((x ++ y ++ name).toList ++ ' ' :: remark.toList) := by simp
  obtain ⟨reading, hread, hbefore⟩ := h.read_before hwhole hstops hends
  obtain ⟨ls₁, ls₂, l, h₁, h₂, hk, rfl, he⟩ := hahead 0
  have hdrop : ((x ++ y ++ l.text).toList ++ ' ' :: remark.toList).drop
      (0 + (x ++ y ++ l.text).length + 1) = remark.toList := by
    rw [List.append_cons]
    refine List.drop_left' ?_
    rw [List.length_append, List.length_singleton, String.length_toList, Nat.zero_add]
  rw [hbefore, hread, he,
    completed_variable (readVariable_spells h₁ h₂ hk hn (isDelimited_of_blank _ _)),
    remainderOf_lexFrom hdrop]
  rfl

/-- A letter begins a name, with which no type goes on. -/
theorem stops_letter {ch : Char} (hc : ch.isAlpha = true) (n : Nat) (sp : Bool) (cs : List Char) :
    Stops (lexFrom n sp (ch :: cs)).lexemes := by
  have hb : beginsName ch = true := by simp [beginsName, hc]
  have hsign : ∀ w : String, w.toList.head?.any Char.isAlpha = false → ∀ tail,
      String.ofList (ch :: tail) ≠ w := by
    rintro w hw tail rfl
    simp [hc] at hw
  have hall : ∀ w ∈ "&" :: goingOn, w.toList.head?.any Char.isAlpha = false := by decide
  rw [lexFrom, if_neg (by simp [isWhiteSpace_of_beginsName hb])]
  simp only [lexemeTail_name hb]
  refine stops_cons (fun hm => hsign _ (hall _ (List.mem_cons_of_mem _ hm)) _ rfl) (fun hn => ?_) ?_
  · obtain rfl : '\\' = ch := by simpa [IsAbsolute, Text.beginsWith] using hn
    simp at hc
  · have hamp := hsign "&" (hall _ (by simp)) (cs.take (Text.run continuesName cs))
    simp only [Grammar.joinsAhead, Reader.shows, List.getElem?_cons_zero, Option.any_some,
      beq_false_of_ne hamp, Bool.false_and]

theorem ReadsAll.read_remark {text remark : String} (h : ReadsAll c text t)
    (hr : remark.toList.head?.any Char.isAlpha = true) :
    read c (text ++ " " ++ remark) = { read c text with remainder := Text.trim remark } := by
  obtain ⟨ch, cs, hremark, hc⟩ : ∃ ch cs, remark.toList = ch :: cs ∧ ch.isAlpha = true := by
    cases hcs : remark.toList with
    | nil => simp [hcs] at hr
    | cons ch cs => exact ⟨ch, cs, rfl, by simpa [hcs] using hr⟩
  have hwhole : (text ++ " " ++ remark).toList = text.toList ++ ' ' :: remark.toList := by simp
  have hends : ∀ n, endsType .type (lexFrom n true remark.toList).lexemes.head? = true := by
    intro n
    rw [endsType, isDelimited_of_blank, Bool.true_or]
  obtain ⟨reading, hread, hbefore⟩ := h.read_before hwhole
    (fun n => hremark ▸ stops_letter hc n true cs) hends
  rw [hbefore, hread]
  simp [completed, remainderOf_lexFrom, Text.trim, Extent.hasVariable]

/-- A tag reads back as it is written. In every scope, over every hierarchy and widely or not, a
type is read before a variable, signs before it and any remark as it is read alone, and so it is
before a remark that begins with a letter. -/
theorem read_described {text : String} (h : ReadsAll c text t) :
    (∀ modifiers ∈ ["", "&", "...", "&..."], ∀ name, IsVariable name → ∀ remark,
      read c (text ++ " " ++ modifiers ++ name ++ " " ++ remark) .modifiers =
        { read c text with name := some name, modifiers, remainder := Text.trim remark }) ∧
    ∀ remark, remark.toList.head?.any Char.isAlpha = true →
      read c (text ++ " " ++ remark) = { read c text with remainder := Text.trim remark } := by
  refine ⟨fun modifiers hm name hn remark => ?_, fun remark => h.read_remark⟩
  obtain ⟨x, y, rfl, hx, hy⟩ : ∃ x y, modifiers = x ++ y ∧ (x = "" ∨ x = "&") ∧
      (y = "" ∨ y = "...") := by
    simp only [List.mem_cons, List.not_mem_nil, or_false] at hm
    rcases hm with rfl | rfl | rfl | rfl
    · exact ⟨"", "", rfl, .inl rfl, .inl rfl⟩
    · exact ⟨"&", "", rfl, .inr rfl, .inl rfl⟩
    · exact ⟨"", "...", rfl, .inl rfl, .inr rfl⟩
    · exact ⟨"&", "...", rfl, .inr rfl, .inr rfl⟩
  exact h.read_variable hx hy hn remark

/-- A quote or a bracket in a remark does not matter, and neither does a word that could go on a
type elsewhere. -/
theorem read_described_sample :
    ReadsAll {} " ?callable(int &...$xs): static " (.ofText "callable|null") ∧
      read {} " ?callable(int &...$xs): static  &...$this_1 don't [call " .modifiers =
        { type := some (.ofText "callable|null")
          name := some "$this_1"
          remainder := "don't [call"
          nullable := true
          modifiers := "&..."
          spelled := some "?callable(int &...$xs): static"
          span := some (1, 31) } ∧
      read {} " ?callable(int &...$xs): static  is (what" =
        { type := some (.ofText "callable|null")
          remainder := "is (what"
          nullable := true
          spelled := some "?callable(int &...$xs): static"
          span := some (1, 31) } := by
  have hall : ReadsAll {} " ?callable(int &...$xs): static " (.ofText "callable|null") :=
    ⟨by decide +kernel, ⟨[11], by decide +kernel⟩, by decide +kernel⟩
  obtain ⟨hvariable, hremark⟩ := read_described hall
  have h₁ := hvariable "&..." (by simp) "$this_1" ⟨"this_1".toList, rfl, by decide⟩ "don't [call "
  have h₂ := hremark "is (what" (by decide)
  exact ⟨hall, h₁.trans (by decide +kernel), h₂.trans (by decide +kernel)⟩

end TypedTag

end PhpDoc
