import PhpDoc.Proofs.Comments
import PhpDoc.Proofs.Names
/-!
The names of a source text. A token that is a name is made of identifiers with single backslashes
between them, and a backslash may stand before them. An identifier may hold characters outside ASCII,
a name of a type may not: the two alphabets agree on ASCII.
-/
namespace PhpDoc
open Grammar (hasEmptySegment)

def Text.isAscii (c : Char) : Bool :=
  c.toNat < 0x80

def Text.asciiPart (s : String) : String :=
  String.ofList (s.toList.takeWhile isAscii)

namespace Piece
variable {c d : Char} {cs : List Char} {shape : Shape} {n : Nat} {p : Piece}

inductive IsSourceName : List Char → Prop
  | relative {c : Char} {cs : List Char} (hc : beginsIdent c = true) (hb : Text.isBlank c = false)
    (hcs : nameTail cs = cs.length) : IsSourceName (c :: cs)
  | absolute {c : Char} {cs : List Char} (hc : beginsIdent c = true)
    (hcs : nameTail cs = cs.length) : IsSourceName ('\\' :: c :: cs)

structure IsJoined (cs : List Char) : Prop where
  ident : ∀ d ∈ cs, isIdent d = true ∨ d = '\\'
  noEmpty : hasEmptySegment cs = false
  closed : cs.getLast? ≠ some '\\'

theorem IsJoined.cons (h : IsJoined cs) (hc : isIdent c = true) : IsJoined (c :: cs) := by
  have hne := ne_backslash_of_isIdent hc
  refine ⟨?_, ?_, ?_⟩
  · simpa [hc] using h.ident
  · rw [hasEmptySegment_cons hne]
    exact h.noEmpty
  · rw [List.getLast?_cons]
    cases hd : cs.getLast? with
    | none => simpa using hne
    | some d => simpa [hd] using h.closed

/-- A backslash before an identifier. -/
theorem IsJoined.backslash (h : IsJoined cs) (hc : isIdent c = true) :
    IsJoined ('\\' :: c :: cs) := by
  obtain ⟨hident, hempty, hclosed⟩ := h.cons hc
  refine ⟨by simpa using hident, ?_, ?_⟩
  · rwa [hasEmptySegment_cons_cons (ne_backslash_of_isIdent hc)]
  · rwa [List.getLast?_cons_cons]

theorem isJoined_of_nameTail (h : nameTail cs = cs.length) : IsJoined cs := by
  fun_induction nameTail cs with
  | case1 => exact ⟨by simp, rfl, by simp⟩
  | case2 c cs hc ih => exact (ih (by simpa using h)).backslash (isIdent_of_beginsIdent hc)
  | case3 | case5 => simp at h
  | case4 c cs _ hc ih => exact (ih (by simpa using h)).cons hc

namespace IsSourceName

theorem isJoined (h : IsSourceName cs) : IsJoined cs := by
  cases h with
  | relative hc _ hcs => exact (isJoined_of_nameTail hcs).cons (isIdent_of_beginsIdent hc)
  | absolute hc hcs => exact (isJoined_of_nameTail hcs).backslash (isIdent_of_beginsIdent hc)

theorem exists_cons (h : IsSourceName cs) : ∃ c ds, cs = c :: ds ∧ Text.isBlank c = false ∧
    (beginsIdent c = true ∨ c = '\\') := by
  cases h with
  | relative hc hb _ => exact ⟨_, _, rfl, hb, .inl hc⟩
  | absolute hc _ => exact ⟨'\\', _, rfl, by decide, .inr rfl⟩

end IsSourceName

theorem le_of_beginsIdent (hc : beginsIdent c = true) : 65 ≤ c.toNat := by
  simp only [beginsIdent, Lexing.isAlpha_eq, Bool.or_eq_true, Bool.and_eq_true, Lexing.isUpper_iff,
    Lexing.isLower_iff, beq_iff_eq, decide_eq_true_eq] at hc
  rcases hc with ((h | h) | rfl) | h
  · exact h.1
  · omega
  · decide
  · omega

theorem isDigit_of_beginsIdent (hc : beginsIdent c = true) : c.isDigit = false := by
  have hle := le_of_beginsIdent hc
  have hdigit : c.isDigit = true → c.toNat ≤ 57 := by
    intro hd
    simp only [Char.isDigit, Bool.and_eq_true, decide_eq_true_eq] at hd
    exact UInt32.le_iff_toNat_le.mp hd.2
  exact Bool.eq_false_iff.mpr fun hd => by
    have := hdigit hd
    omega

/-- Whatever begins like an identifier is a name, unless it is blank. -/
theorem shapeTail_of_beginsIdent (hc : beginsIdent c = true) : shapeTail c cs =
    if Text.isBlank c = true then (.plain .whitespace, Text.run Text.isBlank cs)
    else (.name, nameTail cs) := by
  have hno : ∀ d ∈ ['?', '/', '#', '$', '<', '.', '\'', '"', Char.ofNat 0x60], c ≠ d := by
    have hall : ∀ d ∈ ['?', '/', '#', '$', '<', '.', '\'', '"', Char.ofNat 0x60],
        beginsIdent d = false := by decide
    rintro d hd rfl
    simp [hall c hd] at hc
  have hcomment : commentShape? c cs = none := by
    unfold commentShape?
    split
    · exact absurd rfl (hno '/' (by simp))
    · exact absurd rfl (hno '/' (by simp))
    · exact absurd rfl (hno '/' (by simp))
    · rfl
    · exact absurd rfl (hno '#' (by simp))
    · rfl
  have hliteral : literalShape? c cs = none := by
    unfold literalShape?
    split
    · exact absurd rfl (hno '$' (by simp))
    · exact absurd rfl (hno '<' (by simp))
    · exact absurd rfl (hno '.' (by simp))
    · have hquote : ¬(c = '\'' ∨ c = '"' ∨ c.toNat = 0x60) := by
        rintro (rfl | rfl | hq)
        · exact hno '\'' (by simp) rfl
        · exact hno '"' (by simp) rfl
        · exact hno (Char.ofNat 0x60) (by simp) (Char.toNat_inj.mp hq)
      rw [if_neg hquote, if_neg (by simp [isDigit_of_beginsIdent hc])]
  have hname : nameShape? c cs = some (.name, nameTail cs) := by
    unfold nameShape?
    rw [if_pos hc]
  unfold shapeTail
  split
  · exact absurd rfl (hno '?' (by simp))
  · rw [hcomment, hliteral, hname]

def NamesRight (p : Piece) : Prop :=
  p.kind.isName = true ∨ p.kind.isTrivia = false ∧ isWord p.text = true → IsSourceName p.text

theorem namesRight_of_isTrivia (hp : p.kind.isTrivia = true) : NamesRight p := by
  have hname : p.kind.isName = false := by
    revert hp
    cases p.kind <;> decide
  rintro (hn | ⟨ht, -⟩)
  · exact absurd hn (by simp [hname])
  · exact absurd hp (by simp [ht])

theorem docParts_isTrivia (atStart : Bool) (cs : List Char) :
    ∀ p ∈ docParts atStart cs, p.kind.isTrivia = true := by
  fun_induction docParts atStart cs with
  | case1 => simp
  | case2 atStart c cs kind n hd next ih =>
    refine List.forall_mem_cons.mpr ⟨?_, ?_⟩
    · cases docTail_cut hd <;> rfl
    · split
      · simp
      · exact ih

theorem ofSign_isName (text : String) : (Kind.ofSign text).isName = false := by
  have hsigns : ∀ k ∈ Kind.signs.map (·.2), k.isName = false := by decide
  unfold Kind.ofSign
  cases h : Kind.signs.lookup text with
  | none => rfl
  | some kind => exact hsigns kind (List.mem_map_of_mem (mem_of_lookup h))

theorem isSourceName_of_shapeTail (h : shapeTail c cs = (.name, n)) :
    IsSourceName (c :: cs.take n) := by
  cases shapeTail_cut h with
  | name hc =>
    have hb : Text.isBlank c = false := by
      by_contra hb
      rw [shapeTail_of_beginsIdent hc, if_pos (by simpa using hb)] at h
      cases h
    exact .relative hc hb (nameTail_take cs)
  | @absoluteName d rest hd =>
    rw [Nat.add_comm, List.take_succ_cons]
    exact .absolute hd (nameTail_take rest)

/-- A single word is nothing but a name or white space. -/
theorem shape_of_isWord {ds : List Char} (h : shapeTail c cs = (shape, n))
    (hw : isWord (c :: ds) = true) : shape = .plain .whitespace ∨ shape = .name := by
  rw [isWord, Bool.and_eq_true] at hw
  rw [shapeTail_of_beginsIdent hw.1] at h
  split at h
  · exact .inl (Prod.mk.inj h).1.symm
  · exact .inr (Prod.mk.inj h).1.symm

theorem ofShape_namesRight (h : shapeTail c cs = (shape, n)) :
    ∀ p ∈ ofShape shape (c :: cs.take n), NamesRight p := by
  have hnone : ∀ kind, kind.isName = false → shape ≠ .name →
      (shape = .plain .whitespace → kind.isTrivia = true) →
      NamesRight ⟨kind, c :: cs.take n⟩ := by
    rintro kind hk hs ht (hn | ⟨hn, hw⟩)
    · exact absurd hn (by simp [hk])
    · rw [ht ((shape_of_isWord h hw).resolve_right hs)] at hn
      cases hn
  cases shape with
  | plain kind =>
    have hall : ∀ k ∈ plainKinds, k.isName = false := by decide
    refine List.forall_mem_singleton.mpr (hnone _ (hall _ (shapeTail_kind h)) nofun ?_)
    rintro ⟨⟩
    rfl
  | name => exact List.forall_mem_singleton.mpr fun _ => isSourceName_of_shapeTail h
  | sign => exact List.forall_mem_singleton.mpr (hnone _ (ofSign_isName _) nofun nofun)
  | docComment =>
    refine List.forall_mem_cons.mpr ⟨namesRight_of_isTrivia rfl, fun p hp => ?_⟩
    exact namesRight_of_isTrivia (docParts_isTrivia false _ p hp)

theorem cut_namesRight (php : Bool) (cs : List Char) : ∀ p ∈ cut php cs, NamesRight p := by
  fun_induction cut php cs with
  | case1 => simp
  | case2 c cs shape n h ih => exact List.forall_mem_append.mpr ⟨ofShape_namesRight h, ih⟩
  | case3 | case4 => exact List.forall_mem_cons.mpr ⟨namesRight_of_isTrivia rfl, ‹_›⟩

/-- A piece is given the kind of a name only if it has it, or is a single word. -/
theorem role_isName {before : Option Kind} {after : List Piece}
    (h : (role before p after).isName = true) : p.kind.isName = true ∨ isWord p.text = true := by
  unfold role at h
  split at h
  · split at h
    · next hw => exact .inr hw
    · exact .inl h
  · split at h
    · split at h <;> cases h
    · split at h
      · cases h
      · split at h
        · cases h
        · exact .inl h

theorem assign_namesRight {before : Option Kind} {ps : List Piece} (hps : ∀ p ∈ ps, NamesRight p) :
    ∀ p ∈ assign before ps, p.kind.isName = true → IsSourceName p.text := by
  fun_induction assign before ps with
  | case1 => simp
  | case2 before p ps htrivia ih =>
    obtain ⟨hp, hps⟩ := List.forall_mem_cons.mp hps
    exact List.forall_mem_cons.mpr ⟨fun hn => hp (.inl hn), ih hps⟩
  | case3 before p ps htrivia kind ih =>
    obtain ⟨hp, hps⟩ := List.forall_mem_cons.mp hps
    refine List.forall_mem_cons.mpr ⟨fun hn => hp ?_, ih hps⟩
    exact (role_isName hn).imp_right fun hw => ⟨by simpa using htrivia, hw⟩

end Piece

/-- A token that is a name is a name of a source text. -/
theorem isSourceName_of_mem_tokenize {source : String} {t : Token} (ht : t ∈ tokenize source)
    (hk : t.kind.isName = true) : Piece.IsSourceName t.text.toList :=
  Piece.assign_namesRight (Piece.cut_namesRight false source.toList) _ (piece_of_mem_tokenize ht) hk

end PhpDoc
