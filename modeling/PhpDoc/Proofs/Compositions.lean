import PhpDoc.Proofs.Parentheses
import PhpDoc.Proofs.RespelledText
/-!
Types that are composed of types. A text that is a type as a whole can be put in parentheses, made
nullable, made an array and joined to another such text, and what it stands for is told by what its
parts stand for.
-/
namespace PhpDoc

theorem Text.trimList_ne_nil {c : Char} {cs : List Char} (hc : Text.isBlank c = false) :
    Text.trimList (c :: cs) ≠ [] := by
  rw [Text.trimList, List.dropWhile_cons_of_neg (by simp [hc]), List.reverse_cons,
    List.dropWhile_append]
  split
  · simp [hc]
  · simp

namespace Lexing
variable {c : Char} {cs ds rest : List Char} {k : LexemeKind} {n : Nat} {sp : Bool} {l : Lexeme}
  {ls : List Lexeme}

theorem signTail_ne_variable : (signTail c cs).1 ≠ .variable := by
  unfold signTail
  split
  · split
    · simp
    · simp
  · simp
  · simp
  · simp

theorem dollar_of_lexemeTail (h : lexemeTail c cs = some (k, n)) (hk : k = .variable) :
    c = '$' := by
  cases lexemeTail_cut h with
  | variableName hc => exact hc
  | name | number | quoted => cases hk
  | sign => exact (signTail_ne_variable hk).elim

/-- The text of a variable begins with its sign. -/
theorem dollar_of_mem (hl : l ∈ (lexFrom n sp cs).lexemes) (hk : l.kind = .variable) :
    l.text.toList.head? = some '$' := by
  fun_induction lexFrom n sp cs with
  | case1 => simp at hl
  | case2 n sp c cs hw ih => exact ih hl
  | case3 => simp at hl
  | case4 n sp c cs hw k j ht tail rest ih =>
    cases List.mem_cons.mp hl with
    | inl he =>
      subst he
      rw [String.toList_ofList, dollar_of_lexemeTail ht hk]
      rfl
    | inr hm => exact ih hm

/-- Only a quote begins no lexeme. -/
theorem not_isBlank_of_lexemeTail (h : lexemeTail c cs = none) : Text.isBlank c = false := by
  have hq : c = '\'' ∨ c = '"' := by
    by_contra hq
    by_cases hv : c = '$'
    · simp [lexemeTail, hv] at h
    by_cases hn : beginsName c = true
    · simp [lexemeTail_name hn] at h
    by_cases hd : c.isDigit = true
    · simp [lexemeTail, hv, hn, hd] at h
    · simp [lexemeTail_sign hv hn hd hq] at h
  rcases hq with rfl | rfl
  · decide
  · decide

/-- Where neither lexemes nor other characters remain the text is white. -/
theorem isWhiteSpace_of_remainder (h : (lexFrom n sp cs).lexemes = [])
    (hr : Text.trimList (cs.drop ((lexFrom n sp cs).stop - n)) = []) :
    ∀ d ∈ cs, Text.isWhiteSpace d = true := by
  fun_induction lexFrom n sp cs with
  | case1 => simp
  | case2 n sp c cs hw ih =>
    have hle := le_stop (n + 1) true cs
    have hstop : (lexFrom (n + 1) true cs).stop - n =
        (lexFrom (n + 1) true cs).stop - (n + 1) + 1 := by omega
    rw [hstop, List.drop_succ_cons] at hr
    simpa using ⟨hw, ih h hr⟩
  | case3 n sp c cs hw ht =>
    rw [Nat.sub_self, List.drop_zero] at hr
    exact (Text.trimList_ne_nil (not_isBlank_of_lexemeTail ht) hr).elim
  | case4 => simp at h

theorem lexFrom_sign (hw : Text.isWhiteSpace c = false) (hb : Text.isBlank c = false)
    (ht : lexemeTail c rest = some (.symbol, 0)) (n : Nat) (sp : Bool) :
    lexFrom n sp (c :: rest) = ⟨⟨.symbol, n, String.ofList [c], sp⟩ ::
      (lexFrom (n + 1) false rest).lexemes, (lexFrom (n + 1) false rest).stop⟩ := by
  have ht : lexemeTail c ([] ++ rest) = some (.symbol, List.length ([] : List Char)) := ht
  simpa [hb] using lexFrom_cons hw ht

def InParens (ls ms : List Lexeme) : Prop :=
  ∃ n o e, ms = o :: (ls.map (shift n) ++ [e]) ∧ o.kind = .symbol ∧ o.text = "(" ∧
    e.kind = .symbol ∧ e.text = ")"

/-- No lexeme goes on with a closing parenthesis or a blank. -/
theorem endsToo_of_mem (hc : c ∈ [')', ' ']) (rest : List Char) : EndsToo [] (c :: rest) := by
  have hall : ∀ c ∈ [')', ' '], isWord c = false ∧ continuesName c = false ∧ isDigits c = false ∧
      c.isDigit = false ∧ (c == '.') = false ∧ (c == ':') = false := by
    decide
  obtain ⟨hw, hn, hs, hd, hdot, hcolon⟩ := hall c hc
  refine ⟨fun _ => hw, fun _ => hn, fun _ => hs, fun _ => hd, fun _ => hdot, fun _ => ?_,
    fun _ => hcolon⟩
  rw [take_two_cons, hdot, Bool.false_and]

/-- The lexemes of a text after which nothing remains stand before white space. -/
theorem exists_lexed_whole (hr : Text.trimList (cs.drop (lexFrom 0 false cs).stop) = []) :
    ∃ m sp' gap, Lexed 0 false cs (lexFrom 0 false cs).lexemes m sp' gap ∧
      ∀ d ∈ gap, Text.isWhiteSpace d = true := by
  obtain ⟨m, sp', gap, hl, hgap⟩ : ∃ m sp' gap,
      Lexed 0 false cs (lexFrom 0 false cs).lexemes m sp' gap ∧
        lexFrom m sp' gap = ⟨[], (lexFrom 0 false cs).stop⟩ :=
    exists_lexed (by rw [List.append_nil])
  have hrest : cs.drop m = gap := hl.drop_eq rfl
  have hle : m ≤ (lexFrom 0 false cs).stop := by
    have hstop := le_stop m sp' gap
    rwa [hgap] at hstop
  have hremainder : Text.trimList (gap.drop ((lexFrom m sp' gap).stop - m)) = [] := by
    rwa [hgap, ← hrest, List.drop_drop, Nat.add_sub_cancel' hle]
  exact ⟨m, sp', gap, hl, isWhiteSpace_of_remainder (by rw [hgap]) hremainder⟩

/-- Characters in parentheses are cut as they are alone. -/
theorem cuts_parens (hr : Text.trimList (cs.drop (lexFrom 0 false cs).stop) = [])
    (rest : List Char) :
    Cuts ('(' :: (cs ++ [')'])) rest (InParens (lexFrom 0 false cs).lexemes) := by
  intro start spaced
  obtain ⟨m, sp', gap, hl, hwhite⟩ := exists_lexed_whole hr
  have hlength := hl.length_eq
  have hends : EndsToo (gap ++ []) (gap ++ ')' :: rest) := (endsToo_of_mem (by simp) rest).append
  rw [List.append_nil] at hends
  obtain ⟨front, hcs, hfront⟩ := hl.replace hends
  have hcat : '(' :: (cs ++ [')']) ++ rest = '(' :: (front ++ (gap ++ ')' :: rest)) := by
    simp [hcs]
  have hinner := lexFrom_shift (start + 1) 0 false (front ++ (gap ++ ')' :: rest))
  rw [hfront.lexFrom_eq, lexFrom_gap hwhite, lexFrom_sign (by decide) (by decide) rfl] at hinner
  have hend := lexFrom_shift (start + 1) (m + gap.length + 1) false rest
  have hplace : start + ('(' :: (cs ++ [')'])).length = m + gap.length + 1 + (start + 1) := by
    simp only [List.length_cons, List.length_append, List.length_nil]
    omega
  rw [Nat.zero_add] at hinner
  refine ⟨_, false, ⟨start + 1, ⟨.symbol, start, String.ofList ['('], spaced⟩,
    shift (start + 1) ⟨.symbol, m + gap.length, String.ofList [')'], sp' || !gap.isEmpty⟩,
    rfl, rfl, rfl, rfl, rfl⟩, ?_⟩
  rw [hcat, lexFrom_sign (by decide) (by decide) rfl, hplace, hend, hinner]
  simp

end Lexing

open Lexing (Cuts cuts_sign cuts_of_lexemeTail)

namespace Hierarchy
variable {h : Hierarchy} {P : Member → Prop} {t t₁ t₂ : DocType}

theorem IsUnited.union_regroup (ht : h.IsUnited P t) :
    (h.regroup t).map (fun u => h.union u.members) = h.regroup t := by
  unfold regroup
  split
  · rw [Option.map_map]
    rfl
  · rw [Option.map_some, ht.union_members]

/-- A type with more than one member is told by its text. -/
theorem IsUnited.bar_mem_text_iff (ht : h.IsUnited Member.IsPlain t) :
    '|' ∈ t.text.toList ↔ t.isUnion = true := by
  match hm : t.members with
  | [] => exact (ht.nonempty hm).elim
  | [m] =>
    have hbar := Member.bar_not_mem_text (ht.members m (by simp [hm]))
    simp [DocType.text, DocType.isUnion, hm, Text.glue, hbar]
  | m :: n :: ms =>
    have htext : t.text = Text.glue (String.singleton '|') (t.members.map Member.text) := rfl
    rw [htext, Text.toList_glue]
    simp [DocType.isUnion, hm, List.intercalate_cons_cons]

end Hierarchy

namespace Grammar
open Parse
variable {c : Context} {h : Hierarchy} {P : Member → Prop} {t t₁ t₂ : DocType} {ls : List Lexeme}
  {tss : List (List DocType)}

theorem answers_type_parts
    (h : SpellsItems "|" (SpellsItems "&" (IsPart c (nested c ls.length))) tss ls) :
    Answers (type c) ls (joinedType c.hierarchy tss) [] :=
  answers_get_bind fun _ => answers_whole_parts h

/-- A single type adds to a union what it stands for in parentheses. -/
theorem joined_singleton (hne : t.members ≠ []) :
    joined h [t] = (h.regroup t).map DocType.members := by
  unfold joined Hierarchy.regroup
  match hm : t.members with
  | [] => exact (hne hm).elim
  | [m] =>
    rw [if_neg (by simp [DocType.isUnion, hm])]
    simp [DocType.atoms, hm, Function.comp_def]
  | m :: n :: ms =>
    rw [if_pos (by simp [DocType.isUnion, hm])]
    simp [hm]

theorem joinedType_singleton (h : Hierarchy) (t : DocType) :
    joinedType h [[t]] = (joined h [t]).map h.union := by
  rw [joinedType, List.mapM_cons]
  cases joined h [t] with
  | none => rfl
  | some ms => simp

theorem joinedType_one (ht : h.IsUnited P t) : joinedType h [[t]] = h.regroup t := by
  rw [joinedType_singleton, joined_singleton ht.nonempty, Option.map_map]
  exact ht.union_regroup

theorem joinedType_uncut (h : Hierarchy) {n : String} (hn : IsUncut n) :
    joinedType h [[.ofText n]] = some (.atom n) := by
  rw [DocType.ofText_uncut hn, joinedType_singleton]
  simp [joined, DocType.isUnion, DocType.atoms, DocType.atom, Hierarchy.intersection_singleton]
  rfl

theorem joinedType_union (ht₁ : t₁.members ≠ []) (ht₂ : t₂.members ≠ []) :
    joinedType h [[t₁], [t₂]] = (h.regroup t₁).bind fun u₁ => (h.regroup t₂).map fun u₂ =>
      h.union (u₁.members ++ u₂.members) := by
  rw [joinedType, List.mapM_cons, List.mapM_cons, joined_singleton ht₁, joined_singleton ht₂]
  cases h.regroup t₁ with
  | none => rfl
  | some u₁ =>
    cases h.regroup t₂ with
    | none => rfl
    | some u₂ => simp

theorem joinedType_intersection (h : Hierarchy) (t₁ t₂ : DocType) :
    joinedType h [[t₁, t₂]] = if t₁.isUnion ∨ t₂.isUnion then none
      else (h.intersection (t₁.atoms ++ t₂.atoms)).map fun m => ⟨[m]⟩ := by
  by_cases hu : t₁.isUnion = true ∨ t₂.isUnion = true
  · have hj : joined h [t₁, t₂] = none := by
      unfold joined
      rw [if_pos (by simpa using hu)]
    simp [joinedType, hj, hu]
  · have hj : joined h [t₁, t₂] = (h.intersection (t₁.atoms ++ t₂.atoms)).map fun m => [m] := by
      unfold joined
      rw [if_neg (by simpa using hu)]
      simp
    rw [joinedType, List.mapM_cons, hj, if_neg hu]
    cases h.intersection (t₁.atoms ++ t₂.atoms) with
    | none => rfl
    | some m => rfl

end Grammar

namespace TypedTag
open Parse
variable {c : Context} {text text₁ text₂ : String} {t t₁ t₂ : DocType} {o : Option DocType}
  {ls : List Lexeme} {rest : List Char}

/-- A text that is a type as a whole: all its lexemes are read, and nothing remains. -/
structure ReadsAll (c : Context) (text : String) (t : DocType) : Prop where
  type : (read c text).type = some t
  lexemes : ∃ words, Grammar.type c ⟨(lex text).lexemes, []⟩ = .ok (t, ⟨[], words⟩)
  remainder : (read c text).remainder = ""

/-- A text that is the given type as a whole, or no type if none is given. -/
def Parses (c : Context) (text : String) : Option DocType → Prop
  | some t => ReadsAll c text t
  | none => (read c text).type = none

theorem parses_of_answers (hl : lex text = ⟨ls, text.length⟩) (hne : ls ≠ [])
    (h : Answers (Grammar.type c) ls o []) : Parses c text o := by
  obtain ⟨l, ms, rfl⟩ := List.exists_cons_of_ne_nil hne
  cases o with
  | none =>
    obtain ⟨e, he⟩ := h []
    change (read c text).type = none
    rw [type_read, readType, hl, he]
    rfl
  | some t =>
    obtain ⟨ws, he⟩ := h []
    obtain ⟨r, hr, rfl⟩ : ∃ r, readType c text.toList .type ⟨(lex text).lexemes, []⟩ =
        .ok (r, ⟨[], ws⟩) ∧ r.type = t := by
      rw [hl]
      simp [readType, he, endsType, isDelimited]
    refine ⟨by rw [type_read, hr]; rfl, ⟨ws, by rw [hl]; exact he⟩, ?_⟩
    rw [remainder_read hr, remainderOf, hl, ← String.length_toList]
    simp [Text.trimList_nil]

theorem parses_of_cuts
    (h : Cuts text.toList [] fun ls => ls ≠ [] ∧ Answers (Grammar.type c) ls o []) :
    Parses c text o := by
  obtain ⟨ls, spaced, ⟨hne, ha⟩, he⟩ := h 0 false
  refine parses_of_answers ?_ hne ha
  rw [List.append_nil] at he
  rw [lex, he, Lexing.lexFrom, List.append_nil, Nat.zero_add, String.length_toList]

def Groups (c : Context) (t : DocType) (ls : List Lexeme) : Prop :=
  ∃ o ms e, ls = o :: (ms ++ [e]) ∧
    ∀ depth, ls.length ≤ depth → Grammar.IsGroup (Grammar.nested c depth) t o e ms

theorem ReadsAll.exists_reading (h : ReadsAll c text t) : ∃ r words,
    readType c text.toList .type ⟨(lex text).lexemes, []⟩ = .ok (r, ⟨[], words⟩) ∧ r.type = t := by
  have htype := h.type
  obtain ⟨words, hg⟩ := h.lexemes
  rw [type_read] at htype
  cases hr : readType c text.toList .type ⟨(lex text).lexemes, []⟩ with
  | error e => simp [hr, Except.toOption] at htype
  | ok p =>
    obtain ⟨r, s⟩ := p
    obtain ⟨rfl, rfl⟩ : r.type = t ∧ s = ⟨[], words⟩ := by
      simpa using (exists_of_readType hr).symm.trans hg
    exact ⟨r, words, rfl, rfl⟩

theorem ReadsAll.trimList_drop (h : ReadsAll c text t) :
    Text.trimList (text.toList.drop (lex text).stop) = [] := by
  obtain ⟨r, words, hr, -⟩ := h.exists_reading
  have hremainder := (remainder_read hr).symm.trans h.remainder
  simpa [remainderOf] using congrArg String.toList hremainder

theorem ReadsAll.cuts (h : ReadsAll c text t) (rest : List Char) :
    Cuts ('(' :: (text.toList ++ [')'])) rest (Groups c t) := by
  obtain ⟨words, hg⟩ := h.lexemes
  refine (Lexing.cuts_parens h.trimList_drop rest).mono ?_
  rintro _ ⟨n, o, e, rfl, ho, ho', he, he'⟩
  refine ⟨o, _, e, rfl, fun depth hd => ?_⟩
  have hdepth : (lex text).lexemes.length < depth := by
    simp only [List.length_cons, List.length_append, List.length_map, List.length_nil] at hd
    exact Nat.lt_of_lt_of_le (Nat.lt_succ_self _) (Nat.le_of_succ_le hd)
  exact Grammar.isGroup_of_type hg hdepth (fun l hl => Lexing.dollar_of_mem hl) ho ho' he he'

theorem Groups.ne_nil (h : Groups c t ls) : ls ≠ [] := by
  obtain ⟨o, ms, e, rfl, -⟩ := h
  simp

theorem Groups.isPart {depth : Nat} (h : Groups c t ls) (hd : ls.length ≤ depth) :
    Grammar.IsPart c (Grammar.nested c depth) t ls := by
  obtain ⟨o, ms, e, rfl, hg⟩ := h
  exact (hg depth hd).isPart

theorem ReadsAll.grouped (h : ReadsAll c text t) {P : Member → Prop}
    (ht : c.hierarchy.IsUnited P t) :
    Parses c ("(" ++ text ++ ")") (c.hierarchy.regroup t) := by
  refine parses_of_cuts ?_
  have htext : ("(" ++ text ++ ")").toList = '(' :: (text.toList ++ [')']) := by simp
  rw [htext]
  refine (h.cuts []).mono fun ls hls => ⟨hls.ne_nil, ?_⟩
  rw [← Grammar.joinedType_one ht]
  exact Grammar.answers_type_parts (.last (.last (hls.isPart (Nat.le_refl _))))

theorem ReadsAll.nullable (h : ReadsAll c text t) :
    ReadsAll c ("?(" ++ text ++ ")") (c.hierarchy.union (t.members ++ [["null"]])) := by
  refine parses_of_cuts (o := some _) ?_
  have htext : ("?(" ++ text ++ ")").toList = ['?'] ++ '(' :: (text.toList ++ [')']) := by simp
  rw [htext]
  have hsign : Cuts ['?'] ('(' :: (text.toList ++ [')']) ++ []) _ :=
    cuts_of_lexemeTail (by decide) rfl
  refine (hsign.append (h.cuts [])).mono ?_
  rintro _ ⟨_, ls, rfl, ⟨l, rfl, -, hl⟩, hls⟩
  refine ⟨by simp, answers_get_bind (o := some _) fun _ => ?_⟩
  exact (hls.isPart (Nat.le_succ _)).reads_nullable hl

theorem ReadsAll.array (h : ReadsAll c text t) :
    ReadsAll c ("(" ++ text ++ ")[]") (.atom "array") := by
  refine parses_of_cuts (o := some _) ?_
  have htext : ("(" ++ text ++ ")[]").toList =
      '(' :: (text.toList ++ [')']) ++ (['['] ++ [']']) := by simp
  rw [htext]
  have hopen : Cuts ['['] ([']'] ++ []) _ := cuts_of_lexemeTail (by decide) rfl
  have hclose : Cuts [']'] [] _ := cuts_of_lexemeTail (by decide) rfl
  refine ((h.cuts _).append (hopen.append hclose)).mono ?_
  rintro _ ⟨_, _, rfl, ⟨o, ms, e, rfl, hg⟩, _, _, rfl, ⟨b, rfl, -, hb⟩, b', rfl, -, hb'⟩
  have hcat : o :: (ms ++ [e]) ++ ([b] ++ [b']) = o :: (ms ++ [e, b, b']) := by simp
  rw [hcat]
  have hpart := (hg (o :: (ms ++ [e, b, b'])).length (by simp)).isPart_array (c := c) hb hb'
  exact ⟨by simp, Grammar.answers_type_parts (.last (.last hpart))⟩

/-- Two types in parentheses with a sign between them. -/
theorem ReadsAll.cuts_two (h₁ : ReadsAll c text₁ t₁) (h₂ : ReadsAll c text₂ t₂) {x : Char}
    (hx : x ∈ ['|', '&', '(', ')']) :
    Cuts ('(' :: (text₁.toList ++ [')']) ++ ([x] ++ '(' :: (text₂.toList ++ [')']))) [] fun ls =>
      ∃ ls₁ l ls₂, ls = ls₁ ++ l :: ls₂ ∧ l.text = String.singleton x ∧
        Grammar.IsPart c (Grammar.nested c ls.length) t₁ ls₁ ∧
        Grammar.IsPart c (Grammar.nested c ls.length) t₂ ls₂ := by
  refine ((h₁.cuts _).append ((cuts_sign hx).append (h₂.cuts []))).mono ?_
  rintro _ ⟨ls₁, _, rfl, hls₁, _, ls₂, rfl, ⟨l, rfl, -, hl⟩, hls₂⟩
  refine ⟨ls₁, l, ls₂, rfl, hl, hls₁.isPart ?_, hls₂.isPart ?_⟩
  all_goals
    simp only [List.length_append, List.length_cons]
    omega

theorem ReadsAll.union (h₁ : ReadsAll c text₁ t₁) (h₂ : ReadsAll c text₂ t₂) :
    Parses c ("(" ++ text₁ ++ ")|(" ++ text₂ ++ ")")
      (Grammar.joinedType c.hierarchy [[t₁], [t₂]]) := by
  refine parses_of_cuts ?_
  have htext : ("(" ++ text₁ ++ ")|(" ++ text₂ ++ ")").toList =
      '(' :: (text₁.toList ++ [')']) ++ (['|'] ++ '(' :: (text₂.toList ++ [')'])) := by simp
  rw [htext]
  refine (h₁.cuts_two h₂ (by simp)).mono ?_
  rintro _ ⟨ls₁, l, ls₂, rfl, hl, hp₁, hp₂⟩
  exact ⟨by simp, Grammar.answers_type_parts (.next (.last hp₁) hl (.last (.last hp₂)))⟩

theorem ReadsAll.intersection (h₁ : ReadsAll c text₁ t₁) (h₂ : ReadsAll c text₂ t₂) :
    Parses c ("(" ++ text₁ ++ ")&(" ++ text₂ ++ ")")
      (Grammar.joinedType c.hierarchy [[t₁, t₂]]) := by
  refine parses_of_cuts ?_
  have htext : ("(" ++ text₁ ++ ")&(" ++ text₂ ++ ")").toList =
      '(' :: (text₁.toList ++ [')']) ++ (['&'] ++ '(' :: (text₂.toList ++ [')'])) := by simp
  rw [htext]
  refine (h₁.cuts_two h₂ (by simp)).mono ?_
  rintro _ ⟨ls₁, l, ls₂, rfl, hl, hp₁, hp₂⟩
  exact ⟨by simp, Grammar.answers_type_parts (.last (.next hp₁ hl (.last hp₂)))⟩

theorem ReadsAll.isUnited (hs : c.scope.IsTextual) (h : ReadsAll c text t) :
    c.hierarchy.IsUnited Member.IsPlain t := by
  obtain ⟨words, hg⟩ := h.lexemes
  exact Grammar.isUnited_of_type hs (fun l hl => isProper_of_mem_lex hl) hg

theorem ReadsAll.regroup (hs : c.scope.IsTextual) (ht : c.scope.IsTidy c.hierarchy)
    (h : ReadsAll c text t) : c.hierarchy.regroup t = some t := by
  obtain ⟨words, hg⟩ := h.lexemes
  exact Grammar.regroup_of_type hs ht (fun l hl => isProper_of_mem_lex hl) hg

/-- Types are read compositionally, in every scope whose templates stand for types that texts tell,
over every hierarchy and widely or not. A single intersection is formed again where it stands in
parentheses on its own or between signs `|`, and then it may fail; but it stays as it is in a tidy
scope. -/
theorem read_composed (hs : c.scope.IsTextual) (h₁ : ReadsAll c text₁ t₁)
    (h₂ : ReadsAll c text₂ t₂) :
    Parses c ("(" ++ text₁ ++ ")") (c.hierarchy.regroup t₁) ∧
    ReadsAll c ("?(" ++ text₁ ++ ")") (c.hierarchy.union (t₁.members ++ [["null"]])) ∧
    ReadsAll c ("(" ++ text₁ ++ ")[]") (.atom "array") ∧
    Parses c ("(" ++ text₁ ++ ")|(" ++ text₂ ++ ")")
      ((c.hierarchy.regroup t₁).bind fun u₁ => (c.hierarchy.regroup t₂).map fun u₂ =>
        c.hierarchy.union (u₁.members ++ u₂.members)) ∧
    Parses c ("(" ++ text₁ ++ ")&(" ++ text₂ ++ ")")
      (if '|' ∈ t₁.text.toList ∨ '|' ∈ t₂.text.toList then none
        else (c.hierarchy.intersection (t₁.atoms ++ t₂.atoms)).map fun m => ⟨[m]⟩) ∧
    (c.scope.IsTidy c.hierarchy →
      c.hierarchy.regroup t₁ = some t₁ ∧ c.hierarchy.regroup t₂ = some t₂) := by
  have hu₁ := h₁.isUnited hs
  have hu₂ := h₂.isUnited hs
  refine ⟨h₁.grouped hu₁, h₁.nullable, h₁.array, ?_, ?_,
    fun ht => ⟨h₁.regroup hs ht, h₂.regroup hs ht⟩⟩
  · rw [← Grammar.joinedType_union hu₁.nonempty hu₂.nonempty]
    exact h₁.union h₂
  · simp only [hu₁.bar_mem_text_iff, hu₂.bar_mem_text_iff]
    rw [← Grammar.joinedType_intersection]
    exact h₁.intersection h₂

/-- A union and an intersection, with blanks around them, in the scope of a class. -/
theorem read_composed_sample :
    sampleScope.IsTextual ∧ sampleScope.IsTidy sampleHierarchy ∧
      ReadsAll ⟨sampleScope, sampleHierarchy, false⟩ " T&Base "
        (.ofText "\\App\\Base&\\Iterator&\\Lib\\Bar") ∧
      ReadsAll ⟨sampleScope, sampleHierarchy, false⟩ "list<int>|null" (.ofText "array|null") ∧
      ReadsAll ⟨sampleScope, sampleHierarchy, false⟩ "( T&Base )"
        (.ofText "\\App\\Base&\\Iterator&\\Lib\\Bar") ∧
      ReadsAll ⟨sampleScope, sampleHierarchy, false⟩ "( T&Base )|(list<int>|null)"
        (.ofText "\\App\\Base&\\Iterator&\\Lib\\Bar|array|null") ∧
      (read ⟨sampleScope, sampleHierarchy, false⟩ "( T&Base )&(list<int>|null)").type = none := by
  have htemplate : ∀ a v, sampleScope.templates.get? a = some v →
      v = .ofText "\\Iterator&\\Lib\\Bar" := by
    intro a v hav
    obtain ⟨l₁, l₂, hl, -⟩ := List.lookup_eq_some_iff.mp hav
    have hm : (a, v) ∈ sampleScope.templates := by simp [hl]
    obtain ⟨-, rfl⟩ : a = "T" ∧ v = .ofText "\\Iterator&\\Lib\\Bar" := by
      simpa [sampleScope] using hm
    rfl
  have hs : sampleScope.IsTextual := fun a v hav => ⟨_, htemplate a v hav⟩
  have ht : sampleScope.IsTidy sampleHierarchy := by
    refine ⟨sampleScope_isAscii.isNamed, fun a v hav => ?_⟩
    rw [htemplate a v hav]
    decide +kernel
  have h₁ : ReadsAll ⟨sampleScope, sampleHierarchy, false⟩ " T&Base "
      (.ofText "\\App\\Base&\\Iterator&\\Lib\\Bar") :=
    ⟨by decide +kernel, ⟨[], by decide +kernel⟩, by decide +kernel⟩
  have h₂ : ReadsAll ⟨sampleScope, sampleHierarchy, false⟩ "list<int>|null" (.ofText "array|null") :=
    ⟨by decide +kernel, ⟨[5, 0], by decide +kernel⟩, by decide +kernel⟩
  obtain ⟨hgroup, -, -, hunion, hmeet, hsame⟩ := read_composed hs h₁ h₂
  obtain ⟨hsame₁, hsame₂⟩ := hsame ht
  have htype : sampleHierarchy.union ((DocType.ofText "\\App\\Base&\\Iterator&\\Lib\\Bar").members ++
      (DocType.ofText "array|null").members) =
        .ofText "\\App\\Base&\\Iterator&\\Lib\\Bar|array|null" := by
    decide +kernel
  rw [hsame₁] at hgroup
  rw [hsame₁, hsame₂, Option.bind_some, Option.map_some, htype] at hunion
  rw [if_pos (by decide +kernel)] at hmeet
  exact ⟨hs, ht, h₁, h₂, hgroup, hunion, hmeet⟩

def chainHierarchy : Hierarchy :=
  [("\\A", ⟨some "\\B", []⟩), ("\\C", ⟨some "\\A", []⟩)]

def looseScope : Scope where
  templates := [("T", .ofText "\\A&\\B|\\C")]

/-- Outside of a tidy scope parentheses may change a type. -/
theorem not_read_grouped :
    looseScope.IsTextual ∧
      (read {} "\\A&\\B|\\C").type = some (.ofText "\\A&\\B|\\C") ∧
      ReadsAll ⟨looseScope, chainHierarchy, false⟩ "T" (.ofText "\\A&\\B") ∧
      (read ⟨looseScope, chainHierarchy, false⟩ "(T)").type = some (.ofText "\\A") ∧
      (read ⟨looseScope, chainHierarchy, false⟩ "(T)|(T)").type = some (.ofText "\\A") := by
  refine ⟨fun a v hav => ?_, by decide +kernel,
    ⟨by decide +kernel, ⟨[], by decide +kernel⟩, by decide +kernel⟩, by decide +kernel,
    by decide +kernel⟩
  obtain ⟨l₁, l₂, hl, -⟩ := List.lookup_eq_some_iff.mp hav
  have hm : (a, v) ∈ looseScope.templates := by simp [hl]
  obtain ⟨-, rfl⟩ : a = "T" ∧ v = .ofText "\\A&\\B|\\C" := by simpa [looseScope] using hm
  exact ⟨_, rfl⟩

end TypedTag
end PhpDoc
