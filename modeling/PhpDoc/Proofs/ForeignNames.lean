import Mathlib.Data.List.TakeWhile
import PhpDoc.Proofs.ClosureNames
import PhpDoc.Proofs.Remarks
import PhpDoc.Proofs.SourceNames
/-!
The names of a source text that are read as types. A name is cut at its first character outside
ASCII. White space there sets the rest of the name off like a remark, and any other character spoils
the type.
-/
namespace PhpDoc
open Piece (IsSourceName isIdent beginsIdent)
open Text (isAscii asciiPart)

namespace Lexing
variable {c d : Char} {cs : List Char} {n : String}

theorem isBlank_of_foreign (hd : isAscii d = false) : Text.isBlank d = Text.isWhiteSpace d := by
  have hle : 0x80 ≤ d.toNat := by simpa [isAscii] using hd
  have hinfo : ¬(0x1C ≤ d.toNat ∧ d.toNat ≤ 0x1F) := by omega
  simp [Text.isBlank, ← Bool.decide_and, hinfo]

theorem beginsName_of_beginsIdent (hc : beginsIdent c = true ∨ c = '\\') (ha : isAscii c = true) :
    beginsName c = true := by
  have hlt : c.toNat < 0x80 := by simpa [isAscii] using ha
  have hno : ¬(0x80 ≤ c.toNat ∧ c.toNat ≤ 0xFFFF) := by omega
  rcases hc with hc | rfl
  · simpa [beginsIdent, beginsName, hno, ← Bool.decide_and] using Or.inl hc
  · decide

theorem continuesName_of_isIdent (hc : isIdent c = true ∨ c = '\\') (ha : isAscii c = true) :
    continuesName c = true := by
  rw [isIdent, Bool.or_eq_true] at hc
  rcases hc with (hc | hd) | rfl
  · exact continuesName_of_beginsName (beginsName_of_beginsIdent (.inl hc) ha)
  · simp [continuesName, isWord, Char.isAlphanum, hd]
  · decide

theorem endsName_foreign (hd : isAscii d = false) : EndsName (d :: cs) := by
  rintro _ ⟨⟩
  refine Bool.eq_false_iff.mpr fun hc => ?_
  have hle := (bounds_of_continuesName hc).2
  simp [isAscii] at hd
  omega

/-- A character outside ASCII is a sign of its own, unless it is white space. -/
theorem lexemeTail_foreign (hd : isAscii d = false) : lexemeTail d cs = some (.symbol, 0) := by
  have hno : ∀ e, isAscii e = true → d ≠ e := by
    rintro e he rfl
    exact absurd he (by simp [hd])
  have hends : EndsName (d :: cs) := endsName_foreign hd
  have hname : continuesName d = false := hends d rfl
  have hbegins : ¬beginsName d = true := fun hb => by
    simp [continuesName_of_beginsName hb] at hname
  have hdigit : ¬d.isDigit = true := fun he => by
    simp [continuesName, isWord, Char.isAlphanum, he] at hname
  rw [lexemeTail_sign (hno '$' (by decide)) hbegins hdigit
    (not_or.mpr ⟨hno '\'' (by decide), hno '"' (by decide)⟩),
    signTail_other (fun _ _ he => absurd he (hno '-' (by decide)))
      (fun _ he => absurd he (hno '.' (by decide))) (fun _ he => absurd he (hno ':' (by decide)))]

/-- A lexeme begins with a character of its text. -/
theorem exists_head_of_mem {l : Lexeme} {i : Nat} {sp : Bool}
    (hl : l ∈ (lexFrom i sp cs).lexemes) : ∃ d ∈ cs, l.text.toList.head? = some d := by
  fun_induction lexFrom i sp cs with
  | case1 | case3 => simp at hl
  | case2 i sp c cs hw ih =>
    obtain ⟨d, hd, hh⟩ := ih hl
    exact ⟨d, List.mem_cons_of_mem _ hd, hh⟩
  | case4 i sp c cs hw k j ht tail rest ih =>
    rcases List.mem_cons.mp hl with rfl | hl
    · exact ⟨c, by simp, by simp⟩
    · obtain ⟨d, hd, hh⟩ := ih hl
      exact ⟨d, List.mem_cons_of_mem _ (List.mem_of_mem_drop hd), hh⟩

/-- Types do not go on with the characters of a name. -/
theorem endsTypes_lexemes (hcs : ∀ d ∈ cs, isIdent d = true ∨ d = '\\') (i : Nat) (sp : Bool) :
    Grammar.EndsTypes (lexFrom i sp cs).lexemes := by
  have hall : ∀ x ∈ "&" :: Parse.goingOn, ∀ e ∈ x.toList.head?, ¬(isIdent e = true ∨ e = '\\') := by
    decide
  intro l hl hx
  obtain ⟨d, hd, hh⟩ := exists_head_of_mem (List.mem_of_head? hl)
  exact hall _ hx d hh (hcs d hd)

/-- White space sets off what follows it. No other character outside ASCII does. -/
theorem isDelimited_foreign (hd : isAscii d = false) (i : Nat) :
    TypedTag.isDelimited (lexFrom i false (d :: cs)).lexemes.head? = Text.isWhiteSpace d := by
  cases hw : Text.isWhiteSpace d with
  | true =>
    rw [lexFrom, if_pos hw]
    exact isDelimited_of_blank _ _
  | false =>
    have hall : ∀ x ∈ Words.delimiters, ∀ e ∈ x.toList, isAscii e = true := by decide
    have hno : String.ofList [d] ∉ Words.delimiters := fun hm => by
      simp [hall _ hm d (by simp)] at hd
    rw [lexFrom_sign hw ((isBlank_of_foreign hd).trans hw) (lexemeTail_foreign hd)]
    simpa [TypedTag.isDelimited] using hno

end Lexing

section
variable {n : String} {d : Char} {post : List Char}

theorem asciiPart_append (hd : n.toList.dropWhile isAscii = d :: post) :
    (asciiPart n).toList ++ d :: post = n.toList := by
  rw [asciiPart, String.toList_ofList, ← hd, List.takeWhile_append_dropWhile]

theorem asciiPart_of_ascii (ha : ∀ d ∈ n.toList, isAscii d = true) : asciiPart n = n := by
  rw [asciiPart, List.takeWhile_eq_self_iff.mpr ha, String.ofList_toList]

theorem isAscii_of_dropWhile (hd : n.toList.dropWhile isAscii = d :: post) :
    isAscii d = false := by
  have hno := List.head?_dropWhile_not isAscii n.toList
  rw [hd] at hno
  simpa using hno

namespace Piece.IsSourceName
variable (h : IsSourceName n.toList)
include h

/-- What a name of a source text begins with in ASCII is a name of types. -/
theorem isName_asciiPart (hne : asciiPart n ≠ "") : Lexing.IsName (asciiPart n) := by
  obtain ⟨c, ds, hl, -, hc⟩ := h.exists_cons
  have ha : isAscii c = true := by
    by_contra ha
    exact hne (by simp [asciiPart, hl, ha])
  refine ⟨c, ds.takeWhile isAscii, by simp [asciiPart, hl, ha],
    Lexing.beginsName_of_beginsIdent hc ha, fun d hd => ?_⟩
  have hident := h.isJoined.ident d (by simp [hl, List.takeWhile_subset _ hd])
  exact Lexing.continuesName_of_isIdent hident (List.mem_takeWhile_imp hd)

/-- A name of a source text in ASCII is read as a class, unless it is a type word. -/
theorem isClassText (ha : ∀ d ∈ n.toList, isAscii d = true) (hr : Words.isReserved n = false) :
    Grammar.IsClassText n where
  name := by
    obtain ⟨c, ds, hl, -⟩ := h.exists_cons
    have hname := h.isName_asciiPart (by
      rw [asciiPart_of_ascii ha]
      rintro rfl
      simp at hl)
    rwa [asciiPart_of_ascii ha] at hname
  noHyphen hm := by
    have hhyphen := h.isJoined.ident _ hm
    revert hhyphen
    decide
  noEmpty := h.isJoined.noEmpty
  notReserved := hr
  closed := h.isJoined.closed

end Piece.IsSourceName
end

namespace Grammar
open Parse
variable {c : Context} {l : Lexeme}

/-- A sign that is no ASCII character begins no type. -/
theorem answers_foreign {d : Char} (hd : isAscii d = false) (hl : l.text = String.ofList [d])
    (hk : l.kind = .symbol) (ls : List Lexeme) : Answers (type c) (l :: ls) none [] := by
  have hno : ∀ x : String, (∀ e ∈ x.toList, isAscii e = true) → l.text ≠ x := by
    rintro x hx he
    have ha := hx d (by simp [← he, hl])
    simp [ha] at hd
  have hwords : ∀ w ∈ Words.reserved, ∀ e ∈ w.toList, isAscii e = true := by decide
  have hnone : construct? c.scope l = none := by
    rw [construct?_of_not_word (fun hm => hno _ (hwords _ hm) rfl) (hno _ (by decide))
      (by simp [hk]), hk, beq_false_of_ne (hno "\\Closure" (by decide)),
      beq_false_of_ne (hno "Closure" (by decide))]
    rfl
  have hbasic : ∀ inner, Answers (basic c inner) (l :: ls) none [] := fun inner => by
    refine reads_next?.answers ?_
    rw [List.head?_cons, Option.bind_some, hnone]
    exact answers_fail
  have hsigns : ∀ x ∈ ["(", "?"], ∀ e ∈ x.toList, isAscii e = true := by decide
  have hend : Follows [] [] := by simp [Follows]
  exact answers_get_bind fun _ => answers_whole_of_basic hend (by simp)
    (fun hm => hno _ (hsigns _ hm) rfl) (hbasic _)

/-- A lexeme is read alike, or as no type, before whatever ends a type. -/
theorem exists_answers_type (c : Context) (hl : l.text ∉ ["(", "?"]) :
    ∃ o, ∀ rest, EndsTypes rest → Answers (type c) (l :: rest) o rest := by
  obtain ⟨o, ho⟩ := exists_takes_whole c hl
  exact ⟨o, fun rest hr => answers_get_bind fun _ => ho _ rest hr⟩

end Grammar

namespace TypedTag
open Lexing (lexFrom endsTypes_lexemes isDelimited_foreign)
variable {c : Context} {n : String} {d : Char}

/-- A name in ASCII that is not spelled like a closure is read as the class that it resolves to. -/
theorem read_ascii (h : IsSourceName n.toList) (ha : ∀ d ∈ n.toList, isAscii d = true)
    (hr : Words.isReserved n = false) (hform : ¬c.scope.SpellsClosure n)
    (ht : c.scope.templates.get? n = none) : (read c n).type =
      Grammar.joinedType c.hierarchy [[.ofText (c.scope.resolve n)]] := by
  have htext := h.isClassText ha hr
  have hend : Parse.Follows ["("] [] := by simp [Parse.Follows]
  generalize ho : Grammar.joinedType c.hierarchy [[.ofText (c.scope.resolve n)]] = o
  rw [type_read_of_answers (lexemes_name htext.name)
    (Grammar.answers_classText htext rfl hform ht ho hend)]
  rfl

/-- No type is read of a name that begins outside ASCII. -/
theorem read_foreign_first {post : List Char} (hn : n.toList = d :: post)
    (hd : isAscii d = false) (hb : Text.isBlank d = false) : (read c n).type = none := by
  have hwhite : Text.isWhiteSpace d = false := (Lexing.isBlank_of_foreign hd).symm.trans hb
  have hl : (lex n).lexemes =
      ⟨.symbol, 0, String.ofList [d], false⟩ :: (lexFrom 1 false post).lexemes := by
    rw [lex, hn, Lexing.lexFrom_sign hwhite hb (Lexing.lexemeTail_foreign hd)]
  exact type_read_of_answers hl (Grammar.answers_foreign hd rfl rfl _)

/-- Of a name that goes on with a character outside ASCII only the part before it is read, and only
if the character is white space. -/
theorem read_foreign (h : IsSourceName n.toList)
    (hd : d ∈ (n.toList.dropWhile isAscii).head?) : (read c n).type =
      if Text.isWhiteSpace d = true then (read c (asciiPart n)).type else none := by
  obtain ⟨post, hpost⟩ := List.head?_eq_some_iff.mp hd
  have hforeign := isAscii_of_dropWhile hpost
  have hsplit := asciiPart_append hpost
  by_cases hne : asciiPart n = ""
  · obtain ⟨e, es, he, hblank, -⟩ := h.exists_cons
    obtain ⟨rfl, rfl⟩ : d = e ∧ post = es := by simpa [hne, he] using hsplit
    have hwhite := (Lexing.isBlank_of_foreign hforeign).symm.trans hblank
    rw [read_foreign_first he hforeign hblank, hwhite]
    rfl
  · have hname := h.isName_asciiPart hne
    have hl : (lex n).lexemes = ⟨.name, 0, asciiPart n, false⟩ ::
        (lexFrom (0 + (asciiPart n).length) false (d :: post)).lexemes := by
      rw [lex, ← hsplit, Lexing.lexFrom_name hname (Lexing.endsName_foreign hforeign)]
    have hident : ∀ e ∈ d :: post, isIdent e = true ∨ e = '\\' := fun e he =>
      h.isJoined.ident e (by rw [← hsplit]; exact List.mem_append_right _ he)
    -- the part is read alike before nothing and before the rest of the name
    obtain ⟨o, ho⟩ := Grammar.exists_answers_type (l := ⟨.name, 0, asciiPart n, false⟩) c
      (IsName.not_mem_signs hname (by decide))
    rw [type_read_of_answers hl (ho _ (endsTypes_lexemes hident _ _)),
      type_read_of_answers (lexemes_name hname) (ho [] (by simp [Grammar.EndsTypes])),
      isDelimited_foreign hforeign]
    rfl

section
variable {source : String} {t : Token}

theorem not_spellsClosure (hspelled : n ≠ "Closure") (hclosure : c.scope.resolve n ≠ "\\Closure") :
    ¬c.scope.SpellsClosure n := by
  rintro (rfl | ⟨he, -⟩)
  · exact hclosure rfl
  · exact hspelled he

/-- In a scope without templates, a name of a source text that is no type word and no name for
closures is read as the class that it resolves to only in two cases: it is in ASCII, and what it
resolves to is a type in normal form; or white space is its first character outside ASCII, and the
part before that is already read so. -/
theorem read_nameToken_iff (ht : t ∈ tokenize source) (hk : t.kind.isName = true)
    (hr : Words.isReserved t.text = false) (htemplates : c.scope.templates = [])
    (hspelled : t.text ≠ "Closure") (hclosure : c.scope.resolve t.text ≠ "\\Closure") :
    (read c t.text).type = some (.ofText (c.scope.resolve t.text)) ↔
      (∀ d ∈ t.text.toList, isAscii d = true) ∧
          Grammar.joinedType c.hierarchy [[.ofText (c.scope.resolve t.text)]] =
            some (.ofText (c.scope.resolve t.text)) ∨
        ∃ d ∈ (t.text.toList.dropWhile isAscii).head?, Text.isWhiteSpace d = true ∧
          (read c (asciiPart t.text)).type = some (.ofText (c.scope.resolve t.text)) := by
  have hsource := isSourceName_of_mem_tokenize ht hk
  cases hpost : t.text.toList.dropWhile isAscii with
  | nil =>
    have ha : ∀ d ∈ t.text.toList, isAscii d = true := List.dropWhile_eq_nil_iff.mp hpost
    rw [read_ascii hsource ha hr (not_spellsClosure hspelled hclosure) (by rw [htemplates]; rfl),
      and_iff_right ha]
    simp
  | cons d post =>
    have hforeign : ¬∀ d ∈ t.text.toList, isAscii d = true := fun ha => by
      simp [List.dropWhile_eq_nil_iff.mpr ha] at hpost
    rw [read_foreign hsource (d := d) (by simp [hpost])]
    simp [hforeign]

/-- An imported name is read as the class that is imported. So is a name that goes on with a
no-break space, if both names are imported as that class. -/
theorem read_nameToken_imported :
    (read { scope := { nameSpace := "\\App", imports := [("Foo", "\\Lib\\Foo")] } }
        "Foo\\Bar").type = some (.ofText "\\Lib\\Foo\\Bar") ∧
      (read { scope := { imports := [("Foo", "\\Lib"), ("Foo\u00a0", "\\Lib")] } }
        "Foo\u00a0").type = some (.ofText "\\Lib") := by
  have hqualified : { kind := .qualifiedName, text := "Foo\\Bar", line := 1, column := 7 } ∈
      tokenize "<?php Foo\\Bar" := by
    decide +kernel
  have hword : { kind := .word, text := "Foo\u00a0", line := 1, column := 7 } ∈
      tokenize "<?php Foo\u00a0" := by
    decide +kernel
  constructor
  · refine (read_nameToken_iff hqualified rfl (by decide +kernel) rfl (by decide)
      (by decide +kernel)).mpr (.inl ?_)
    exact ⟨by decide, by decide +kernel⟩
  · refine (read_nameToken_iff hword rfl (by decide +kernel) rfl (by decide)
      (by decide +kernel)).mpr (.inr ?_)
    exact ⟨Char.ofNat 0xA0, by decide, by decide, by decide +kernel⟩

/-- A class whose name begins outside ASCII is a name of the source text and no type. -/
theorem not_read_nameToken_foreign : ∃ t ∈ tokenize "<?php Été", t.kind.isName = true ∧
    t.text = "Été" ∧ Words.isReserved t.text = false ∧
      ({} : Scope).resolve t.text = "\\Été" ∧ (read {} t.text).type = none := by
  decide +kernel

end

end TypedTag
end PhpDoc
