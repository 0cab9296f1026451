import PhpDoc.Proofs.Names
/-!
The lexemes of the text of a type whose atoms can be read: names, and names in parentheses after
`static`.
-/
namespace PhpDoc
open Lexing (IsName Cuts EndsName cuts_name cuts_sign)

inductive SpellsAtom : String → List Lexeme → Prop
  | name {l : Lexeme} (hk : l.kind = .name) (hn : IsName l.text) : SpellsAtom l.text [l]
  | late {w o l e : Lexeme} (hk : w.kind = .name) (hw : w.text = "static") (ho : o.text = "(")
      (hn : IsName l.text) (ha : IsAbsolute l.text) (he : e.text = ")") :
      SpellsAtom (lateBound l.text) [w, o, l, e]

inductive SpellsItems {α : Type} (sep : String) (P : α → List Lexeme → Prop) :
    List α → List Lexeme → Prop
  | last {a : α} {ls : List Lexeme} (h : P a ls) : SpellsItems sep P [a] ls
  | next {a : α} {as : List α} {ls ms : List Lexeme} {l : Lexeme} (h : P a ls) (hl : l.text = sep)
      (hs : SpellsItems sep P as ms) : SpellsItems sep P (a :: as) (ls ++ l :: ms)

def SpellsMember : Member → List Lexeme → Prop :=
  SpellsItems "&" SpellsAtom

def SpellsType (t : DocType) : List Lexeme → Prop :=
  SpellsItems "|" SpellsMember t.members

def IsReadable (a : String) : Prop :=
  IsName a ∨ ∃ n, IsName n ∧ IsAbsolute n ∧ a = lateBound n

variable {a : String} {m : Member} {t : DocType} {rest : List Char}

theorem SpellsAtom.ne_nil {ls : List Lexeme} (h : SpellsAtom a ls) : ls ≠ [] := by
  cases h <;> simp

theorem SpellsItems.and {α : Type} {sep : String} {P : α → List Lexeme → Prop} {G : α → Prop}
    {as : List α} {ls : List Lexeme} (h : SpellsItems sep P as ls) (hG : ∀ a ∈ as, G a) :
    SpellsItems sep (fun a ls => G a ∧ P a ls) as ls := by
  induction h with
  | last h => exact .last ⟨hG _ (by simp), h⟩
  | next h hl _ ih => exact .next ⟨hG _ (by simp), h⟩ hl (ih fun b hb => hG b (by simp [hb]))

theorem SpellsItems.right {α : Type} {sep : String} {P : α → List Lexeme → Prop} {G : α → Prop}
    {as : List α} {ls : List Lexeme} (h : SpellsItems sep (fun a ls => G a ∧ P a ls) as ls) :
    SpellsItems sep P as ls := by
  induction h with
  | last h => exact .last h.2
  | next h hl _ ih => exact .next h.2 hl ih

theorem SpellsItems.ne_nil {α : Type} {sep : String} {P : α → List Lexeme → Prop} {as : List α}
    {ls : List Lexeme} (hP : ∀ a ls, P a ls → ls ≠ []) (h : SpellsItems sep P as ls) : ls ≠ [] := by
  cases h with
  | last h => exact hP _ _ h
  | next h => simp

theorem isName_of_head (h : ∃ d ∈ a.toList.head?, Lexing.beginsName d = true ∧
    ∀ d ∈ a.toList.tail, Lexing.continuesName d = true) : IsName a := by
  obtain ⟨d, hd, hb, hds⟩ := h
  cases hl : a.toList with
  | nil => simp [hl] at hd
  | cons e es =>
    obtain rfl : e = d := by simpa [hl] using hd
    exact ⟨e, es, hl, hb, by simpa [hl] using hds⟩

theorem isName_static : IsName "static" :=
  isName_of_head (by decide)

theorem endsName_sign {c : Char} (hc : c ∈ ['|', '&', '(', ')']) : EndsName (c :: rest) := by
  have hall : ∀ c ∈ ['|', '&', '(', ')'], Lexing.continuesName c = false := by decide
  intro d hd
  obtain rfl : c = d := by simpa using hd
  exact hall c hc

theorem IsName.ne_of_sign {s : String} (hn : IsName a)
    (hs : ∀ d ∈ s.toList.head?, Lexing.beginsName d = false) : a ≠ s := by
  rintro rfl
  obtain ⟨c, cs, hl, hc, -⟩ := hn
  have hb := hs c (by simp [hl])
  simp [hc] at hb

theorem IsName.not_mem_signs {signs : List String} (hn : IsName a)
    (hs : ∀ s ∈ signs, ∀ d ∈ s.toList.head?, Lexing.beginsName d = false) : a ∉ signs :=
  fun hm => IsName.ne_of_sign hn (hs a hm) rfl

theorem not_isName_lateBound {n : String} : ¬IsName (lateBound n) := by
  rintro ⟨c, cs, hl, -, hcs⟩
  rw [toList_lateBound] at hl
  obtain ⟨-, rfl⟩ := List.cons.inj hl
  have hopen := hcs '(' (by simp)
  revert hopen
  decide

/-- An atom begins with a name. -/
theorem SpellsAtom.exists_cons {ls : List Lexeme} (h : SpellsAtom a ls) :
    ∃ l ms, ls = l :: ms ∧ l.kind = .name ∧ IsName l.text := by
  cases h with
  | @name l hk hn => exact ⟨l, [], rfl, hk, hn⟩
  | @late w o l e hk hw => exact ⟨w, [o, l, e], rfl, hk, hw ▸ isName_static⟩

theorem SpellsMember.exists_cons {ls : List Lexeme} (h : SpellsMember m ls) :
    ∃ l ms, ls = l :: ms ∧ l.kind = .name ∧ IsName l.text := by
  cases h with
  | last h => exact h.exists_cons
  | next h =>
    obtain ⟨l, ms, rfl, hk, hn⟩ := h.exists_cons
    exact ⟨l, _, rfl, hk, hn⟩

theorem SpellsMember.ne_nil {ls : List Lexeme} (h : SpellsMember m ls) : ls ≠ [] :=
  SpellsItems.ne_nil (fun _ _ h => h.ne_nil) h

theorem SpellsType.exists_cons {ls : List Lexeme} (h : SpellsType t ls) :
    ∃ l ms, ls = l :: ms ∧ l.kind = .name ∧ IsName l.text := by
  generalize hm : t.members = ms at h
  rw [SpellsType, hm] at h
  cases h with
  | last h => exact SpellsMember.exists_cons h
  | next h =>
    obtain ⟨l, ms, rfl, hk, hn⟩ := SpellsMember.exists_cons h
    exact ⟨l, _, rfl, hk, hn⟩

/-- The text of an atom is cut into the lexemes that spell it. -/
theorem cuts_atom (h : IsReadable a) (hr : EndsName rest) : Cuts a.toList rest (SpellsAtom a) := by
  cases h with
  | inl hn =>
    refine (cuts_name hn hr).mono ?_
    rintro _ ⟨l, rfl, hk, rfl⟩
    exact .name hk hn
  | inr h =>
    obtain ⟨n, hn, ha, rfl⟩ := h
    have hl : (lateBound n).toList = "static".toList ++ (['('] ++ (n.toList ++ [')'])) := by
      have h₁ : ("static" : String).toList = ['s', 't', 'a', 't', 'i', 'c'] := by decide
      rw [toList_lateBound, h₁]
      simp
    have hclose := @cuts_sign rest ')' (by simp)
    have hname := (cuts_name hn (endsName_sign (c := ')') (by simp))).append hclose
    have hopen := (cuts_sign (c := '(') (by simp)).append hname
    have hstatic := (cuts_name isName_static (endsName_sign (c := '(') (by simp))).append hopen
    rw [hl]
    refine hstatic.mono ?_
    rintro _ ⟨_, _, rfl, ⟨w, rfl, hk, hw⟩, _, _, rfl, ⟨o, rfl, -, ho⟩, _, _, rfl, ⟨l, rfl, -, rfl⟩,
      e, rfl, -, he⟩
    exact .late hk hw ho hn ha he

/-- Items with a sign between them are cut item by item. -/
theorem cuts_items {α : Type} {P : α → List Lexeme → Prop} {text : α → String} {c : Char}
    {as : List α} (hc : c ∈ ['|', '&', '(', ')'])
    (hP : ∀ a ∈ as, ∀ rest, EndsName rest → Cuts (text a).toList rest (P a)) (hne : as ≠ [])
    (hr : EndsName rest) :
    Cuts (Text.glue (String.singleton c) (as.map text)).toList rest
      (SpellsItems (String.singleton c) P as) := by
  rw [Text.toList_glue, List.map_map]
  induction as with
  | nil => exact (hne rfl).elim
  | cons a as ih =>
    cases as with
    | nil =>
      rw [List.map_singleton, List.intercalate_singleton]
      exact (hP a (by simp) rest hr).mono fun ls hls => .last hls
    | cons b as =>
      rw [List.map_cons, List.map_cons, List.intercalate_cons_cons, ← List.map_cons]
      have hrest := ih (fun d hd => hP d (List.mem_cons_of_mem _ hd)) (by simp)
      have hsign := (cuts_sign hc).append hrest
      have hitem := (hP a (by simp) _ (endsName_sign hc)).append hsign
      rw [List.append_assoc]
      refine hitem.mono ?_
      rintro _ ⟨ls, _, rfl, hls, _, ms, rfl, ⟨l, rfl, -, hl⟩, hms⟩
      exact .next hls hl hms

theorem cuts_member (hm : m ≠ []) (h : ∀ a ∈ m, IsReadable a) (hr : EndsName rest) :
    Cuts m.text.toList rest (SpellsMember m) := by
  have hcut := cuts_items (by simp : '&' ∈ ['|', '&', '(', ')'])
    (fun a ha rest hr => cuts_atom (h a ha) hr) hm hr
  rwa [List.map_id'] at hcut

/-- The text of a type is cut into the lexemes that spell it. -/
theorem lex_text (hne : t.members ≠ []) (hm : ∀ m ∈ t.members, m ≠ [])
    (h : ∀ m ∈ t.members, ∀ a ∈ m, IsReadable a) :
    SpellsType t (lex t.text).lexemes ∧ (lex t.text).stop = t.text.length := by
  have hends : EndsName [] := by simp [EndsName]
  have hcut := cuts_items (by simp : '|' ∈ ['|', '&', '(', ')'])
    (fun m hmt rest hr => cuts_member (hm m hmt) (h m hmt) hr) hne hends
  have htext : Text.glue (String.singleton '|') (t.members.map Member.text) = t.text := rfl
  rw [htext] at hcut
  obtain ⟨ls, spaced, hls, he⟩ := hcut 0 false
  rw [List.append_nil] at he
  rw [lex, he, Lexing.lexFrom, List.append_nil]
  refine ⟨hls, ?_⟩
  rw [Nat.zero_add, String.length_toList]

end PhpDoc
