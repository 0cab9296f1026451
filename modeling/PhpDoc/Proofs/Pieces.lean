import PhpDoc.Source.Tokenize
/-!
Cutting a source text loses nothing: the pieces in order are the text again, none of them is empty,
and the tokens carry the texts of the pieces.
-/
namespace PhpDoc
namespace Piece

structure Cover (ps : List Piece) (cs : List Char) : Prop where
  joined : ps.flatMap (·.text) = cs
  nonempty : ∀ p ∈ ps, p.text ≠ []

namespace Cover
variable {ps qs : List Piece} {cs ds : List Char}

theorem nil : Cover [] [] :=
  ⟨rfl, by simp⟩

theorem single {text : List Char} (kind : Kind) (h : text ≠ []) : Cover [⟨kind, text⟩] text :=
  ⟨by simp, by simpa using h⟩

theorem append (h : Cover ps cs) (h' : Cover qs ds) : Cover (ps ++ qs) (cs ++ ds) where
  joined := by rw [List.flatMap_append, h.joined, h'.joined]
  nonempty p hp := (List.mem_append.mp hp).elim (h.nonempty p) (h'.nonempty p)

/-- Every cut takes the first character and some of those after it. -/
theorem cons (kind : Kind) (c : Char) {n : Nat} (h : Cover ps (cs.drop n)) :
    Cover (⟨kind, c :: cs.take n⟩ :: ps) (c :: cs) := by
  simpa using (single kind (List.cons_ne_nil c (cs.take n))).append h

end Cover

/-- The text up to the end of a comment does not go on past that end. -/
theorem commentTail_take (cs : List Char) :
    commentTail (cs.take (commentTail cs)) = (cs.take (commentTail cs)).length := by
  fun_induction commentTail cs with
  | case1 rest => simp [commentTail]
  | case2 c cs h ih =>
    rw [List.take_succ_cons, List.length_cons, commentTail.eq_2, ih]
    -- a star at the end of the taken text has no slash after it there either
    intro rest hc ht
    obtain ⟨d, ds, rfl⟩ : ∃ d ds, cs = d :: ds := by
      cases cs with
      | nil => simp at ht
      | cons d ds => exact ⟨d, ds, rfl⟩
    have hd : d = '/' := by
      cases hn : commentTail (d :: ds) with
      | zero => simp [hn] at ht
      | succ n => simpa [hn] using congrArg List.head? ht
    exact h ds hc (by rw [hd])
  | case3 => rfl

theorem commentTail_tail {c : Char} {cs : List Char}
    (h : commentTail (c :: cs) = (c :: cs).length) : commentTail cs = cs.length := by
  by_cases hend : c = '*' ∧ ∃ rest, cs = '/' :: rest
  · obtain ⟨rfl, rest, rfl⟩ := hend
    have : rest = [] := by simpa [commentTail] using h
    subst this
    rfl
  · rw [commentTail.eq_2 _ _ fun rest hc hcs => hend ⟨hc, rest, hcs⟩] at h
    simpa using h

theorem commentTail_drop {cs : List Char} (h : commentTail cs = cs.length) (n : Nat) :
    commentTail (cs.drop n) = (cs.drop n).length := by
  induction n generalizing cs with
  | zero => simpa using h
  | succ n ih =>
    cases cs with
    | nil => rfl
    | cons c cs => exact ih (commentTail_tail h)

/-- What is cut off from a documentation comment that begins with a character: a part of some kind,
with so many characters after the first. -/
inductive DocCut (atStart : Bool) (c : Char) (cs : List Char) : Kind → Nat → Prop
  | close (rest : List Char) (hc : c = '*') (hcs : cs = '/' :: rest) :
    DocCut atStart c cs .docClose 1
  | lineBreak (hbreak : 0 < Text.breakWidth (c :: cs)) :
    DocCut atStart c cs .docBlank (Text.breakWidth (c :: cs) - 1)
  | blank (hbreak : Text.breakWidth (c :: cs) = 0) (hblank : isDocBlank c = true) :
    DocCut atStart c cs .docBlank (Text.run isDocBlank cs)
  | star (hstart : atStart = true) (hc : c = '*') : DocCut atStart c cs .docStar 0
  | tag (hc : c = '@') :
    DocCut atStart c cs .docTag (beforeEnd (fun d => !Text.isBlank d) cs)
  | text (hbreak : Text.breakWidth (c :: cs) = 0) :
    DocCut atStart c cs .docText
      ((cs.take (beforeEnd (fun d => d != '\r' && d != '\n') cs)).reverse.dropWhile
        isDocBlank).length

section
variable {atStart : Bool} {c : Char} {cs : List Char} {kind : Kind} {n : Nat}

theorem docTail_cut (h : docTail atStart c cs = (kind, n)) : DocCut atStart c cs kind n := by
  unfold docTail at h
  split at h
  · rename_i hclose
    cases h
    obtain ⟨rest, hcs⟩ := List.head?_eq_some_iff.mp hclose.2
    exact .close rest hclose.1 hcs
  · split at h
    · rename_i hbreak
      cases h
      exact .lineBreak hbreak
    · rename_i hbreak
      have hnone := Nat.eq_zero_of_not_pos hbreak
      split at h
      · rename_i hblank
        cases h
        exact .blank hnone hblank
      · split at h
        · rename_i hstar
          cases h
          exact .star hstar.1 hstar.2
        · split at h
          · rename_i hat
            cases h
            exact .tag hat
          · cases h
            exact .text hnone

/-- At the end of a comment nothing but its closer is cut off. -/
theorem kind_of_end (h : docTail atStart c cs = (kind, n)) (hc : c = '*')
    (hslash : cs.head? = some '/') : kind = .docClose := by
  rw [docTail, if_pos ⟨hc, hslash⟩] at h
  exact (Prod.mk.inj h).1.symm

theorem docTail_close (h : docTail atStart c cs = (.docClose, n)) :
    c = '*' ∧ n = 1 ∧ ∃ rest, cs = '/' :: rest := by
  cases docTail_cut h with
  | close rest hc hcs => exact ⟨hc, rfl, rest, hcs⟩

/-- The text of a part is cut from its line. -/
theorem length_docText_le (cs : List Char) :
    ((cs.take (beforeEnd (fun d => d != '\r' && d != '\n') cs)).reverse.dropWhile
      isDocBlank).length ≤ beforeEnd (fun d => d != '\r' && d != '\n') cs := by
  refine Nat.le_trans (List.dropWhile_sublist isDocBlank).length_le ?_
  rw [List.length_reverse]
  exact List.length_take_le _ cs

end

theorem docParts_cover {cs : List Char} (atStart : Bool) (h : commentTail cs = cs.length) :
    Cover (docParts atStart cs) cs := by
  fun_induction docParts atStart cs with
  | case1 => exact .nil
  | case2 atStart c cs kind n hd next ih =>
    refine .cons kind c ?_
    split
    · rename_i hk
      subst hk
      -- nothing is left after the end of the comment
      obtain ⟨rfl, rfl, rest, rfl⟩ := docTail_close hd
      have : rest = [] := by simpa [commentTail] using h
      subst this
      exact .nil
    · exact ih (commentTail_drop h (n + 1))

inductive ShapeCut : Char → List Char → Shape → Nat → Prop
  | closeTag (rest : List Char) :
    ShapeCut '?' ('>' :: rest) (.plain .closeTag) (1 + Text.breakWidth rest)
  | blank {c : Char} {cs : List Char} (hc : Text.isBlank c = true) :
    ShapeCut c cs (.plain .whitespace) (Text.run Text.isBlank cs)
  | emptyComment (rest : List Char) :
    ShapeCut '/' ('*' :: '*' :: '/' :: rest) (.plain .comment) 3
  | docComment (rest : List Char) :
    ShapeCut '/' ('*' :: '*' :: rest) .docComment (2 + commentTail rest)
  | comment (rest : List Char) :
    ShapeCut '/' ('*' :: rest) (.plain .comment) (1 + commentTail rest)
  | lineComment {c : Char} {cs : List Char} (hc : c = '/' ∨ c = '#') :
    ShapeCut c cs (.plain .comment) (Text.run (fun d => d != '\r' && d != '\n') cs)
  | variableName {d : Char} (rest : List Char) (hd : beginsIdent d = true) :
    ShapeCut '$' (d :: rest) (.plain .variable) (1 + Text.run isIdent rest)
  | heredoc {rest : List Char} {m : Nat} (hm : heredocTail rest = some m) :
    ShapeCut '<' ('<' :: '<' :: rest) (.plain .heredoc) (2 + m)
  | fraction {cs : List Char} {m : Nat} (hm : fractionTail cs = some m) :
    ShapeCut '.' cs (.plain .decimal) m
  | quoted {c : Char} {cs : List Char} {m : Nat} (hc : c = '\'' ∨ c = '"' ∨ c.toNat = 0x60)
    (hm : Text.quoteTail c cs = some m) : ShapeCut c cs (.plain .quotedText) m
  | number {c : Char} {cs : List Char} (hc : c.isDigit = true) :
    ShapeCut c cs (.plain (numberTail c cs).1) (numberTail c cs).2
  | name {c : Char} {cs : List Char} (hc : beginsIdent c = true) :
    ShapeCut c cs .name (nameTail cs)
  | absoluteName {d : Char} (rest : List Char) (hd : beginsIdent d = true) :
    ShapeCut '\\' (d :: rest) .name (1 + nameTail rest)
  | sign {c : Char} {cs : List Char} (hc : Text.isBlank c = false) :
    ShapeCut c cs .sign (signTail c cs)

section
variable {c : Char} {cs : List Char} {shape : Shape} {n : Nat}

theorem commentShape?_cut (h : commentShape? c cs = some (shape, n)) : ShapeCut c cs shape n := by
  unfold commentShape? at h
  simp only at h
  split at h
  · split at h
    · rename_i rest hslash
      obtain ⟨rest, rfl⟩ := List.head?_eq_some_iff.mp hslash
      cases h
      exact .emptyComment rest
    · cases h
      exact .docComment _
  · cases h
    exact .comment _
  · cases h
    exact .lineComment (.inl rfl)
  · cases h
  · cases h
    exact .lineComment (.inr rfl)
  · cases h

theorem literalShape?_cut (h : literalShape? c cs = some (shape, n)) : ShapeCut c cs shape n := by
  unfold literalShape? at h
  split at h
  · split at h
    · rename_i hd
      cases h
      exact .variableName _ hd
    · cases h
  · obtain ⟨m, hm, heq⟩ := Option.map_eq_some_iff.mp h
    cases heq
    exact .heredoc hm
  · obtain ⟨m, hm, heq⟩ := Option.map_eq_some_iff.mp h
    cases heq
    exact .fraction hm
  · split at h
    · rename_i hc
      obtain ⟨m, hm, heq⟩ := Option.map_eq_some_iff.mp h
      cases heq
      exact .quoted hc hm
    · split at h
      · rename_i hc
        cases h
        exact .number hc
      · cases h

theorem nameShape?_cut (h : nameShape? c cs = some (shape, n)) : ShapeCut c cs shape n := by
  unfold nameShape? at h
  split at h
  · rename_i hc
    cases h
    exact .name hc
  · split at h
    · split at h
      · rename_i hd
        cases h
        exact .absoluteName _ hd
      · cases h
    · cases h

theorem shapeTail_cut (h : shapeTail c cs = (shape, n)) : ShapeCut c cs shape n := by
  unfold shapeTail at h
  split at h
  · cases h
    exact .closeTag _
  · split at h
    · rename_i hc
      cases h
      exact .blank hc
    · rename_i hc
      split at h
      · rename_i hcomment
        exact commentShape?_cut (h ▸ hcomment)
      · split at h
        · rename_i hliteral
          exact literalShape?_cut (h ▸ hliteral)
        · split at h
          · rename_i hname
            exact nameShape?_cut (h ▸ hname)
          · cases h
            exact .sign (Bool.eq_false_iff.mpr hc)

theorem shapeTail_docComment (h : shapeTail c cs = (.docComment, n)) :
    ∃ rest, c = '/' ∧ cs = '*' :: '*' :: rest ∧ n = 2 + commentTail rest := by
  cases shapeTail_cut h with
  | docComment rest => exact ⟨rest, rfl, rfl, rfl⟩

end

theorem ofShape_cover {c : Char} {cs : List Char} {shape : Shape} {n : Nat}
    (h : shapeTail c cs = (shape, n)) :
    Cover (ofShape shape (c :: cs.take n)) (c :: cs.take n) := by
  cases shape with
  | plain kind => exact .single kind (by simp)
  | name => exact .single _ (by simp)
  | sign => exact .single _ (by simp)
  | docComment =>
    obtain ⟨rest, rfl, rfl, rfl⟩ := shapeTail_docComment h
    have hd := docParts_cover false (commentTail_take rest)
    simpa [ofShape, Nat.add_comm 2] using
      (Cover.single .docOpen (List.cons_ne_nil '/' ['*', '*'])).append hd

theorem cut_cover (php : Bool) (cs : List Char) : Cover (cut php cs) cs := by
  fun_induction cut php cs with
  | case1 => exact .nil
  | case2 c cs shape n h ih =>
    have := (ofShape_cover h).append ih
    simpa using this
  | case3 => exact .cons _ _ ‹_›
  | case4 => exact .cons _ _ ‹_›

section
variable {c : Char} {cs : List Char}

theorem isIdent_of_beginsIdent (hc : beginsIdent c = true) : isIdent c = true := by
  simp [isIdent, hc]

theorem ne_backslash_of_isIdent (hc : isIdent c = true) : c ≠ '\\' := by
  rintro rfl
  revert hc
  decide

theorem nameTail_cons (hc : isIdent c = true) : nameTail (c :: cs) = nameTail cs + 1 := by
  rw [nameTail, if_pos hc]
  rintro d ds rfl
  exact absurd rfl (ne_backslash_of_isIdent hc)

/-- What a name is cut off with is a name to its end. -/
theorem nameTail_take (cs : List Char) :
    nameTail (cs.take (nameTail cs)) = (cs.take (nameTail cs)).length := by
  fun_induction nameTail cs with
  | case1 | case3 | case5 => rfl
  | case2 c cs hc ih => simp [nameTail, hc, ih]
  | case4 c cs _ hc ih => rw [List.take_succ_cons, nameTail_cons hc, ih, List.length_cons]

end

theorem assign_text (before : Option Kind) (ps : List Piece) :
    (assign before ps).map (·.text) = ps.map (·.text) := by
  fun_induction assign before ps <;> simp [*]

theorem toTokens_text (p : Place) (ps : List Piece) :
    (toTokens p ps).map (·.text) = ps.map fun x => String.ofList x.text := by
  fun_induction toTokens p ps <;> simp [*]

end Piece

namespace Tokens

/-- A declaration gives its keyword a parameter list and a body and leaves the rest of it. -/
theorem declare_eq (ts : Tokens) (i : Nat) (t : Token) :
    ∃ parameters body, ts.declare i t = { t with parameters, body } := by
  unfold declare
  split <;> (try split) <;> exact ⟨_, _, rfl⟩

/-- What is kept of each token is kept of all. -/
theorem map_mapIdx {α : Type} (ts : Tokens) (f : Nat → Token → Token) (g : Token → α)
    (h : ∀ i t, g (f i t) = g t) : (ts.mapIdx f).toList.map g = ts.toList.map g := by
  refine List.ext_getElem? fun i => ?_
  simp [Function.comp_def, h]

theorem withGroups_text (ts : Tokens) :
    ts.withGroups.toList.map (·.text) = ts.toList.map (·.text) :=
  map_mapIdx ts _ _ fun _ _ => rfl

theorem withExtents_text (ts : Tokens) :
    ts.withExtents.toList.map (·.text) = ts.toList.map (·.text) := by
  refine map_mapIdx ts _ _ fun i t => ?_
  split
  · rfl
  · obtain ⟨_, _, h⟩ := declare_eq ts i t
    rw [h]

end Tokens

/-- The tokens have the texts of the pieces. -/
theorem tokenize_text (source : String) :
    (tokenize source).toList.map (·.text) =
      (Piece.cut false source.toList).map fun p => String.ofList p.text := by
  rw [tokenize, Tokens.withExtents_text, Tokens.withGroups_text, Piece.toTokens_text]
  have h := congrArg (List.map String.ofList)
    (Piece.assign_text none (Piece.cut false source.toList))
  rwa [List.map_map, List.map_map] at h

theorem source_tokenize (source : String) : (tokenize source).source = source := by
  rw [Tokens.source, tokenize_text, ← String.toList_inj, String.toList_join, List.flatMap_map]
  simpa using (Piece.cut_cover false source.toList).joined

/-- The tokens of a source text in order are the text, and none of them is empty. -/
theorem tokenize_lossless (source : String) :
    (tokenize source).source = source ∧ "" ∉ (tokenize source).toList.map (·.text) := by
  refine ⟨source_tokenize source, fun h => ?_⟩
  rw [tokenize_text] at h
  obtain ⟨p, hp, htext⟩ := List.mem_map.mp h
  exact (Piece.cut_cover false source.toList).nonempty p hp (by simpa using htext)

end PhpDoc
