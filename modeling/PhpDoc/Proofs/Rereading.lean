import PhpDoc.Proofs.Answers
/-!
Reading the text of a type again. The atoms of a canonical type are words that stand for themselves,
names, and classes that are bound late; each is read as one atom, whatever follows it in the text.
-/
namespace PhpDoc
open Lexing (IsName)
open Parse

inductive IsCanonicalAtom : String → Prop
  | constant {w : String} (hw : w ∈ Grammar.constants) : IsCanonicalAtom w
  | open {w : String} (hw : w ∈ ["self", "parent", "static"]) : IsCanonicalAtom w
  | name {n : String} (hn : IsAsciiName n) : IsCanonicalAtom n
  | late {n : String} (hn : IsName n) (ha : IsAbsolute n) : IsCanonicalAtom (lateBound n)

theorem IsCanonicalAtom.isPlainAtom {a : String} (ha : IsCanonicalAtom a) : IsPlainAtom a := by
  cases ha with
  | constant hw => exact Grammar.isPlainAtom_constant hw
  | «open» hw =>
    have hall : ∀ w ∈ ["self", "parent", "static"], ∀ d ∈ w.toList,
        d ∉ ['\\', '(', ')', '|', '&'] := by decide
    exact isPlainAtom_word (hall a hw)
  | name hn => exact hn.isClassName.isPlainAtom
  | late hn hb => exact .lateBound ⟨hb, hn.isUncut⟩

def Scope.settle (scope : Scope) (a : String) : String :=
  if a = "self" then known scope.className a id
  else if a = "parent" then known scope.parentName a id
  else if a = "static" then known scope.className a lateBound
  else a

structure IsSettled (scope : Scope) (a : String) : Prop where
  canonical : IsCanonicalAtom a
  settle : scope.settle a = a

namespace Scope
variable {scope : Scope} {n w : String}

theorem settle_of_not_mem (hw : w ∉ ["self", "parent", "static"]) : scope.settle w = w := by
  simp only [List.mem_cons, List.not_mem_nil, or_false, not_or] at hw
  simp [Scope.settle, hw]

theorem settle_constant (hw : w ∈ Grammar.constants) : scope.settle w = w := by
  have hall : ∀ w ∈ Grammar.constants, w ∉ ["self", "parent", "static"] := by decide
  exact settle_of_not_mem (hall w hw)

theorem settle_name (hn : IsAsciiName n) : scope.settle n = n := by
  have hall : ∀ w ∈ ["self", "parent", "static"], ¬IsAbsolute w := by decide
  exact settle_of_not_mem fun hm => hall n hm hn.isAbsolute

theorem settle_lateBound : scope.settle (lateBound n) = lateBound n := by
  have hall : ∀ w ∈ ["self", "parent", "static"], '(' ∉ w.toList := by decide
  exact settle_of_not_mem fun hm => hall _ hm (by simp [toList_lateBound])

theorem settle_self : scope.settle "self" = known scope.className "self" id := by
  simp [Scope.settle]

theorem settle_parent : scope.settle "parent" = known scope.parentName "parent" id := by
  simp [Scope.settle]

theorem settle_static : scope.settle "static" = known scope.className "static" lateBound := by
  simp [Scope.settle]

theorem isSettled_constant (hw : w ∈ Grammar.constants) : IsSettled scope w :=
  ⟨.constant hw, settle_constant hw⟩

theorem isSettled_name (hn : IsAsciiName n) : IsSettled scope n :=
  ⟨.name hn, settle_name hn⟩

theorem isSettled_lateBound (hn : IsName n) (ha : IsAbsolute n) : IsSettled scope (lateBound n) :=
  ⟨.late hn ha, settle_lateBound⟩

theorem isSettled_open {name : Option String} {spell : String → String}
    (hw : w ∈ ["self", "parent", "static"]) (hs : scope.settle w = known name w spell)
    (hn : ∀ n, name = some n → n ≠ "" → IsSettled scope (spell n)) :
    IsSettled scope (scope.settle w) := by
  by_cases hk : known name w spell = w
  · rw [hs, hk]
    exact ⟨.open hw, hs.trans hk⟩
  · rw [hs]
    cases name with
    | none => exact (hk rfl).elim
    | some n =>
      by_cases he : n = ""
      · exact (hk (by simp [known, he])).elim
      · simpa [known, he] using hn n rfl he

/-- What the atoms of canonical types stand for stands for itself. -/
theorem IsAscii.isSettled (hs : scope.IsAscii) (ha : IsCanonicalAtom w) :
    IsSettled scope (scope.settle w) := by
  cases ha with
  | constant hw =>
    rw [settle_constant hw]
    exact isSettled_constant hw
  | name hn =>
    rw [settle_name hn]
    exact isSettled_name hn
  | late hn hb =>
    rw [settle_lateBound]
    exact isSettled_lateBound hn hb
  | «open» hw =>
    have hname : ∀ n, scope.className = some n → n ≠ "" → IsAsciiName n := fun n hn he =>
      (hs.className n hn).resolve_left he
    have hmem := hw
    simp only [List.mem_cons, List.not_mem_nil, or_false] at hmem
    obtain rfl | rfl | rfl := hmem
    · exact isSettled_open hw settle_self fun n hn he => isSettled_name (hname n hn he)
    · exact isSettled_open hw settle_parent fun n hn he =>
        isSettled_name ((hs.parentName n hn).resolve_left he)
    · exact isSettled_open hw settle_static fun n hn he =>
        isSettled_lateBound (hname n hn he).isName (hname n hn he).isAbsolute

end Scope

namespace Grammar
variable {c : Context} {inner : Nested} {ls rest : List Lexeme} {l : Lexeme} {a n w : String}

/-- A word that stands for itself is read as it stands. -/
theorem reads_constant (hw : l.text ∈ constants) (hk : l.kind = .name)
    (hr : Follows ["|", "&"] rest) :
    ∃ k, construct? c.scope l = some k ∧ Reads (stem c inner k) (l :: rest) (.atom l.text) rest := by
  obtain ⟨kind, start, text, spaced⟩ := l
  obtain rfl : kind = .name := hk
  have hsees : ∀ s ∈ ["<", "\x7b", "("], Reads (sees s) rest false rest := fun s hs =>
    hr.reads_sees (by revert s; decide)
  simp only [constants, Words.plain, List.mem_cons, List.mem_append, List.not_mem_nil, or_false] at hw
  obtain (rfl | rfl | rfl | rfl | rfl | rfl | rfl | rfl | rfl | rfl) | rfl | rfl | rfl | rfl | rfl |
    rfl | rfl := hw
  · exact ⟨.bool, rfl, reads_word.bind reads_pure⟩
  · exact ⟨.int, rfl, reads_word.bind ((hsees "<" (by decide)).bind reads_pure)⟩
  · exact ⟨.float, rfl, reads_word.bind reads_pure⟩
  · exact ⟨.string, rfl, reads_word.bind reads_pure⟩
  · exact ⟨.array, rfl, reads_word.bind
      ((hsees "<" (by decide)).bind ((hsees "\x7b" (by decide)).bind reads_pure))⟩
  · exact ⟨.object, rfl, reads_skip.bind ((hsees "\x7b" (by decide)).bind reads_pure)⟩
  · exact ⟨.never, rfl, reads_word.bind reads_pure⟩
  · exact ⟨.callable, rfl, reads_take.bind ((hsees "(" (by decide)).bind reads_pure)⟩
  · exact ⟨.callable, rfl, reads_take.bind ((hsees "(" (by decide)).bind reads_pure)⟩
  · exact ⟨.iterable, rfl, reads_skip.bind ((hsees "<" (by decide)).bind reads_pure)⟩
  all_goals exact ⟨.plain, rfl, reads_take.bind reads_pure⟩

/-- The words for the class at hand stand for it where it is known. -/
theorem reads_open (hs : c.scope.IsAscii) (hw : l.text ∈ ["self", "parent", "static"])
    (hk : l.kind = .name) (hr : Follows ["|", "&"] rest) :
    ∃ k, construct? c.scope l = some k ∧
      Reads (stem c inner k) (l :: rest) (.atom (c.scope.settle l.text)) rest := by
  have huncut : IsUncut (c.scope.settle l.text) :=
    (hs.isSettled (.open hw)).canonical.isPlainAtom.uncut
  obtain ⟨kind, start, text, spaced⟩ := l
  obtain rfl : kind = .name := hk
  simp only [List.mem_cons, List.not_mem_nil, or_false] at hw
  obtain rfl | rfl | rfl := hw
  · refine ⟨.self, rfl, reads_skip.bind ?_⟩
    rw [Scope.settle_self] at huncut ⊢
    rw [← scopeType_eq huncut]
    exact reads_pure
  · refine ⟨.parent, rfl, reads_skip.bind ?_⟩
    rw [Scope.settle_parent] at huncut ⊢
    rw [← scopeType_eq huncut]
    exact reads_pure
  · refine ⟨.static, rfl, reads_skip.bind ?_⟩
    refine (hr.reads_sees (by decide)).bind ((reads_seesAt _ 2 ")").bind ?_)
    have hclass : Reads (scopeStatic c) rest (DocType.atom (c.scope.settle "static")) rest := by
      unfold scopeStatic
      rw [Scope.settle_static] at huncut ⊢
      cases hc : c.scope.className with
      | none => exact reads_pure
      | some n =>
        by_cases he : n = ""
        · simp only [he, if_true, known]
          exact reads_pure
        · simp only [hc, known, if_neg he] at huncut ⊢
          rw [← DocType.ofText_uncut huncut]
          exact reads_pure
    exact hclass

/-- What is no type word begins nothing but the name of a class or of a closure. -/
theorem construct?_of_not_word {scope : Scope} (hno : l.text ∉ Words.reserved)
    (hthis : l.text ≠ "$this") (hk : l.kind ∉ [.number, .quoted]) : construct? scope l =
      if l.text == "\\Closure" || (l.text == "Closure" && scope.nameSpace == "") then some .callable
      else if l.kind == .name && !l.text.toList.contains '-' &&
        !hasEmptySegment l.text.toList && !Words.isReserved l.text then some .className
      else none := by
  have hword : ∀ w ∈ Words.reserved, (l.text == w) = false := fun w hw =>
    beq_false_of_ne fun he => hno (he ▸ hw)
  have hwords : ∀ ws : List String, (∀ w ∈ ws, w ∈ Words.reserved) → ws.contains l.text = false :=
    fun ws hws => by simpa using fun hm => hno (hws _ hm)
  have hnumber : (l.kind == .number) = false := beq_false_of_ne fun he => hk (by simp [he])
  have hquoted : (l.kind == .quoted) = false := beq_false_of_ne fun he => hk (by simp [he])
  dsimp only [construct?]
  rw [hwords Words.bool (by decide), hwords Words.int (by decide), hwords Words.float (by decide),
    hwords Words.string (by decide), hwords Words.array (by decide), hword "object" (by decide),
    hwords Words.never (by decide), hwords Words.plain (by decide), hword "self" (by decide),
    hword "parent" (by decide), hword "static" (by decide), hword "callable" (by decide),
    hword "iterable" (by decide), hword "key-of" (by decide), hword "value-of" (by decide),
    beq_false_of_ne hthis, hnumber, hquoted]
  rfl

/-- No type word begins with a backslash. -/
theorem construct?_of_asciiName (hn : IsAsciiName l.text) (hk : l.kind = .name) :
    construct? c.scope l = if l.text = "\\Closure" then some .callable else some .className := by
  have hall : ∀ w ∈ Words.reserved, ¬IsAbsolute w := by decide
  have hno : ∀ w : String, ¬IsAbsolute w → l.text ≠ w := fun w hw he => hw (he ▸ hn.isAbsolute)
  have hres : Words.isReserved l.text = false := by
    have hfold : IsAbsolute (Text.fold l.text) := by
      obtain ⟨cs, hcs⟩ := isAbsolute_iff.mp hn.isAbsolute
      exact isAbsolute_iff.mpr ⟨cs.map Text.foldChar, by simp [Text.fold, hcs]; decide⟩
    simpa [Words.isReserved] using fun hm => hall _ hm hfold
  rw [construct?_of_not_word (fun hw => hno _ (hall _ hw) rfl) (hno _ (by decide)) (by simp [hk]),
    beq_false_of_ne (hno "Closure" (by decide)), hres, hk, IsSegmented.noEmpty hn]
  simp [hn.noHyphen]

/-- An absolute name is read as it stands. -/
theorem reads_asciiName (hn : IsAsciiName l.text) (hk : l.kind = .name)
    (hr : Follows ["|", "&"] rest) :
    ∃ k, construct? c.scope l = some k ∧ Reads (stem c inner k) (l :: rest) (.atom l.text) rest := by
  by_cases hc : l.text = "\\Closure"
  · refine ⟨.callable, by rw [construct?_of_asciiName hn hk, if_pos hc], reads_take.bind ?_⟩
    refine (hr.reads_sees (by decide)).bind ?_
    rw [hc]
    exact reads_pure
  · refine ⟨.className, by rw [construct?_of_asciiName hn hk, if_neg hc], reads_take.bind ?_⟩
    rw [if_neg (IsSegmented.closed hn)]
    refine (hr.reads_sees (by decide)).bind ?_
    have ht : classType c.scope l.text = .atom l.text := by
      have ha : Text.beginsWith "\\" l.text = true := hn.isAbsolute
      rw [classType, if_pos ha, DocType.ofText_uncut hn.isClassName.uncut]
    rw [← ht]
    exact reads_pure

/-- A class that is bound late is read as it stands. -/
theorem reads_late {w o e : Lexeme} (hw : w.text = "static") (hk : w.kind = .name)
    (ho : o.text = "(") (hn : IsName l.text) (ha : IsAbsolute l.text) (he : e.text = ")") :
    ∃ k, construct? c.scope w = some k ∧
      Reads (stem c inner k) (w :: o :: l :: e :: rest) (.atom (lateBound l.text)) rest := by
  obtain ⟨kind, start, text, spaced⟩ := w
  obtain rfl : kind = .name := hk
  obtain rfl : text = "static" := hw
  refine ⟨.static, rfl, reads_skip.bind ?_⟩
  have hopen : Reads (sees "(") (o :: l :: e :: rest) true (o :: l :: e :: rest) := by
    have hs := reads_sees_cons o (l :: e :: rest) "("
    rwa [ho] at hs
  have hclose : Reads (seesAt 2 ")") (o :: l :: e :: rest) true (o :: l :: e :: rest) := by
    have hs := reads_seesAt (o :: l :: e :: rest) 2 ")"
    simpa [he] using hs
  refine hopen.bind (hclose.bind ?_)
  dsimp only
  rw [Bool.and_self, if_pos rfl]
  refine answers_get_bind (o := some _) fun ws => ?_
  have hb : Text.beginsWith "\\" l.text = true := ha
  simp only [List.getElem?_cons_succ, List.getElem?_cons_zero, hb, if_true]
  refine reads_skip.bind (reads_skip.bind (reads_skip.bind ?_))
  rw [← DocType.ofText_uncut (isUncut_lateBound hn.isUncut)]
  exact reads_pure

theorem reads_basic_of_stem {t : DocType} {signs : List String} (hr : Follows signs rest)
    (hsigns : "::" ∉ signs)
    (h : ∃ k, construct? c.scope l = some k ∧ Reads (stem c inner k) (l :: ls) t rest) :
    Reads (basic c inner) (l :: ls) t rest := by
  obtain ⟨k, hk, ht⟩ := h
  refine reads_next?.bind ?_
  rw [List.head?_cons, Option.bind_some, hk]
  refine ht.bind ((hr.reads_sees hsigns).bind ?_)
  rw [Bool.false_and, if_neg Bool.false_ne_true]
  exact reads_pure

/-- An atom of a canonical type is read as what it stands for. -/
theorem reads_basic (hs : c.scope.IsAscii) (ha : IsCanonicalAtom a) (h : SpellsAtom a ls)
    (hr : Follows ["|", "&"] rest) :
    Reads (basic c inner) (ls ++ rest) (.atom (c.scope.settle a)) rest := by
  cases h with
  | @name l hk hn =>
    refine reads_basic_of_stem hr (by decide) ?_
    generalize hl : l.text = a at ha hn
    cases ha with
    | constant hw =>
      rw [Scope.settle_constant hw, ← hl]
      exact reads_constant (hl ▸ hw) hk hr
    | «open» hw =>
      rw [← hl]
      exact reads_open hs (hl ▸ hw) hk hr
    | name hname =>
      rw [Scope.settle_name hname, ← hl]
      exact reads_asciiName (hl ▸ hname) hk hr
    | late => exact (not_isName_lateBound hn).elim
  | @late w o l e hk hw ho hn hb he =>
    rw [Scope.settle_lateBound]
    exact reads_basic_of_stem hr (by decide) (reads_late hw hk ho hn hb he)

theorem reads_single (hs : c.scope.IsAscii) (ha : IsCanonicalAtom a) (h : SpellsAtom a ls)
    (hr : Follows ["|", "&"] rest) :
    Reads (single c inner) (ls ++ rest) (.atom (c.scope.settle a)) rest := by
  have hb : Reads (basic c inner) (ls ++ rest) (.atom (c.scope.settle a)) rest :=
    reads_basic hs ha h hr
  have hopen : Reads (sees "(") (ls ++ rest) false (ls ++ rest) := by
    obtain ⟨l, ms, rfl, -, hn⟩ := h.exists_cons
    have hs := reads_sees_cons l (ms ++ rest) "("
    rwa [beq_false_of_ne (IsName.ne_of_sign hn (by decide))] at hs
  refine hopen.bind (hb.bind (answers_get_bind (o := some _) fun ws => ?_))
  cases rest with
  | nil => exact reads_pure
  | cons l rest =>
    refine (hr.reads_sees (by decide)).bind ((reads_seesAt _ 1 "]").bind ?_)
    exact reads_pure

theorem reads_joins {as : List String} {ms : List Lexeme} (h : SpellsMember as ms)
    (hl : l.text = "&") : Reads joins (l :: (ms ++ rest)) true (l :: (ms ++ rest)) := by
  obtain ⟨d, ds, rfl, hk, hn⟩ := h.exists_cons
  have hs := reads_sees_cons l (d :: ds ++ rest) "&"
  rw [hl] at hs
  refine hs.bind (answers_get_bind (o := some _) fun ws => ?_)
  have hno : d.text ∉ ["...", "=", ",", ")"] := IsName.not_mem_signs hn (by decide)
  have hsigns : ["...", "=", ",", ")"].contains d.text = false := by simpa using hno
  have hv : (!(["...", "=", ",", ")"].contains d.text) && d.kind != .variable) = true := by
    rw [hsigns, hk]
    rfl
  simp only [List.cons_append, List.getElem?_cons_succ, List.getElem?_cons_zero, hv]
  exact reads_pure

theorem reads_joins_last (hr : Follows ["|"] rest) : Reads joins rest false rest := by
  refine (hr.reads_sees (by decide)).bind ?_
  exact reads_pure

def settleMember (c : Context) (m : Member) : Option Member :=
  match m.map c.scope.settle with
  | [a] => some [a]
  | as => c.hierarchy.intersection as

theorem mapM_some {α β : Type} (f : α → β) (as : List α) :
    as.mapM (fun a => some (f a)) = some (as.map f) :=
  List.mapM_pure

theorem answers_meetOrFail (c : Context) (as : List String) (ls : List Lexeme) :
    Answers (meetOrFail c as) ls ((c.hierarchy.intersection as).map fun m => [m]) ls := by
  unfold meetOrFail
  cases c.hierarchy.intersection as with
  | none => exact answers_fail
  | some m => exact reads_pure

/-- An intersection of canonical atoms is read as what it stands for. -/
theorem answers_intersection {m : Member} (hs : c.scope.IsAscii) (ha : ∀ a ∈ m, IsCanonicalAtom a)
    (h : SpellsMember m ls) (hr : Follows ["|"] rest) :
    Answers (intersection c inner) (ls ++ rest) ((settleMember c m).map fun n => [n]) rest := by
  have hitems : Answers (items (single c inner) joins) (ls ++ rest)
      (m.mapM fun a => some (DocType.atom (c.scope.settle a))) rest := by
    refine answers_items (F := Follows ["|", "&"]) (fun a ls h => h.2.ne_nil) ?_ ?_ ?_
      (reads_joins_last hr) (hr.mono (by simp)) (h.and ha)
    · exact fun a ls rest h hr => reads_single hs h.1 h.2 hr
    · exact fun l rest hl k hk => by simp_all
    · exact fun as l ms h hl => reads_joins h.right hl
  rw [mapM_some] at hitems
  refine Reads.answers hitems ?_
  have hunion : (m.map fun a => DocType.atom (c.scope.settle a)).any DocType.isUnion = false := by
    simp [DocType.isUnion, DocType.atom]
  have hatoms : (m.map fun a => DocType.atom (c.scope.settle a)).flatMap DocType.atoms =
      m.map c.scope.settle := by
    simp [DocType.atoms, DocType.atom, List.flatMap_map, ← List.map_eq_flatMap]
  split
  · next hu => exact absurd (hunion.symm.trans hu) Bool.false_ne_true
  · next hu _ => exact absurd (hunion.symm.trans hu) Bool.false_ne_true
  · rw [hatoms, settleMember]
    cases m.map c.scope.settle with
    | nil => exact answers_meetOrFail c [] rest
    | cons a as =>
      cases as with
      | nil => exact reads_pure
      | cons b as => exact answers_meetOrFail c (a :: b :: as) rest

def settleType (c : Context) (t : DocType) : Option DocType :=
  (t.members.mapM fun m => (settleMember c m).map fun n => [n]).map fun mss =>
    c.hierarchy.union mss.flatten

variable {t : DocType}

/-- A union of intersections of canonical atoms is read as what it stands for. -/
theorem answers_whole (hs : c.scope.IsAscii) (ha : ∀ m ∈ t.members, ∀ a ∈ m, IsCanonicalAtom a)
    (h : SpellsType t ls) : Answers (whole c inner) ls (settleType c t) [] := by
  have hq : Reads (sees "?") ls false ls := by
    obtain ⟨l, ms, rfl, -, hn⟩ := h.exists_cons
    have hs := reads_sees_cons l ms "?"
    rwa [beq_false_of_ne (IsName.ne_of_sign hn (by decide))] at hs
  refine hq.answers ?_
  have hitems : Answers (items (intersection c inner) (sees "|")) (ls ++ [])
      (t.members.mapM fun m => (settleMember c m).map fun n => [n]) [] := by
    refine answers_items (F := Follows ["|"]) (fun m ls h => h.2.ne_nil) ?_ ?_ ?_ ?_ ?_ (h.and ha)
    · exact fun m ls rest h hr => answers_intersection hs h.1 h.2 hr
    · exact fun l rest hl k hk => by simp_all
    · intro ms l ls _ hl
      have hsees := reads_sees_cons l (ls ++ []) "|"
      rwa [hl] at hsees
    · exact fun ws => ⟨ws, rfl⟩
    · exact fun l hl => by simp at hl
  rw [List.append_nil] at hitems
  rw [if_neg Bool.false_ne_true, settleType]
  cases hm : t.members.mapM fun m => (settleMember c m).map fun n => [n] with
  | none => exact answers_none_bind (hm ▸ hitems)
  | some mss =>
    rw [hm] at hitems
    exact Reads.answers hitems reads_pure

theorem answers_type (hs : c.scope.IsAscii) (ha : ∀ m ∈ t.members, ∀ a ∈ m, IsCanonicalAtom a)
    (h : SpellsType t ls) : Answers (type c) ls (settleType c t) [] :=
  answers_get_bind fun _ => answers_whole hs ha h

end Grammar

theorem IsCanonicalAtom.isReadable {a : String} (ha : IsCanonicalAtom a) : IsReadable a := by
  cases ha with
  | constant hw =>
    have hall : ∀ w ∈ Grammar.constants, ∃ d ∈ w.toList.head?, Lexing.beginsName d = true ∧
        ∀ d ∈ w.toList.tail, Lexing.continuesName d = true := by decide
    exact Or.inl (isName_of_head (hall a hw))
  | «open» hw =>
    have hall : ∀ w ∈ ["self", "parent", "static"], ∃ d ∈ w.toList.head?,
        Lexing.beginsName d = true ∧ ∀ d ∈ w.toList.tail, Lexing.continuesName d = true := by decide
    exact Or.inl (isName_of_head (hall a hw))
  | name hn => exact Or.inl hn.isName
  | late hn hb => exact Or.inr ⟨_, hn, hb, rfl⟩

structure DocType.IsSpellable (t : DocType) : Prop where
  nonempty : t.members ≠ []
  members : ∀ m ∈ t.members, m ≠ []
  atoms : ∀ m ∈ t.members, ∀ a ∈ m, IsCanonicalAtom a

namespace TypedTag
variable {c : Context} {t u : DocType}

theorem readType_text (hs : c.scope.IsAscii) (ht : t.IsSpellable) {ls : List Lexeme}
    (h : SpellsType t ls) : (readType c t.text.toList .type ⟨ls, []⟩).toOption.map
      (fun r => (r.1.type, r.2.rest)) = (Grammar.settleType c t).map fun u => (u, []) := by
  have hanswer := Grammar.answers_type hs ht.atoms h
  cases hu : Grammar.settleType c t with
  | none =>
    rw [hu] at hanswer
    obtain ⟨e, he⟩ := hanswer []
    simp [readType, he, Except.toOption]
  | some u =>
    rw [hu] at hanswer
    obtain ⟨ws, he⟩ := hanswer []
    obtain ⟨l, ms, rfl, -, -⟩ := h.exists_cons
    simp [readType, he, endsType, isDelimited, Except.toOption]

theorem type_read (c : Context) (text : String) : (read c text).type =
    (readType c text.toList .type { rest := (lex text).lexemes }).toOption.map (·.1.type) := by
  have hdefault : ∀ b d : Bool, ((Extent.type == .default) && b && d) = false := by decide
  unfold read
  simp only [hdefault, Bool.false_eq_true, if_false, Option.map_map]
  rfl

theorem remainder_read {text : String} {r : Reading} {s : Reader}
    (h : readType c text.toList .type { rest := (lex text).lexemes } = .ok (r, s)) :
    (read c text).remainder = remainderOf text.toList (lex text).stop s := by
  have hv : Extent.type.hasVariable = false := rfl
  unfold read
  simp [h, hv]

/-- The text of a union of intersections of canonical atoms is read as what it stands for, and
nothing remains. -/
theorem read_text (hs : c.scope.IsAscii) (ht : t.IsSpellable) :
    (read c t.text).type = Grammar.settleType c t ∧
      ∀ u, (read c t.text).type = some u → (read c t.text).remainder = "" := by
  obtain ⟨hspell, hstop⟩ := lex_text ht.nonempty ht.members fun m hm a ha =>
    (ht.atoms m hm a ha).isReadable
  have hr := readType_text hs ht hspell
  rw [type_read]
  cases hread : readType c t.text.toList .type { rest := (lex t.text).lexemes } with
  | error e =>
    rw [hread] at hr
    cases hu : Grammar.settleType c t with
    | none => exact ⟨rfl, by simp [Except.toOption]⟩
    | some u => simp [hu, Except.toOption] at hr
  | ok p =>
    obtain ⟨r, s⟩ := p
    rw [hread] at hr
    cases hu : Grammar.settleType c t with
    | none => simp [hu, Except.toOption] at hr
    | some u =>
      obtain ⟨rfl, hrest⟩ : r.type = u ∧ s.rest = [] := by simpa [hu, Except.toOption] using hr
      refine ⟨rfl, fun _ _ => ?_⟩
      rw [remainder_read hread, remainderOf, hrest, hstop, ← String.length_toList]
      simp [Text.trimList_nil]

end TypedTag
end PhpDoc
