import PhpDoc.Declaration.Name
import PhpDoc.Proofs.SourceNames
import PhpDoc.Proofs.Steps
/-!
The names of functions. A word after `function` that opens a parameter list names a function,
whatever keyword it may be elsewhere; after the sign for returning by reference it does so unless it
is a keyword.
-/
namespace PhpDoc

def Kind.isKeyword (w : String) : Bool :=
  (keywords.lookup (Text.fold w)).isSome || otherKeywords.contains (Text.fold w)

namespace Piece
variable {before : Option Kind} {p : Piece} {ps after : List Piece} {cs : List Char} {c : Char}

theorem beginsIdent_of_foldChar (h : (Text.foldChar c).isAlpha = true) : beginsIdent c = true := by
  unfold Text.foldChar at h
  split at h
  · next hc => simp [beginsIdent, hc]
  · have halpha : c.isAlpha = true := by
      unfold Char.toLower at h
      split at h
      · next hc =>
        rw [Lexing.isAlpha_eq, Bool.or_eq_true]
        exact .inl (decide_eq_true hc)
      · exact h
    simp [beginsIdent, halpha]

/-- A text that is a word of ASCII letters in some casing. -/
theorem isWord_of_fold {s w : String} (hs : Text.fold s = w) (hne : w.toList ≠ [])
    (hw : w.toList.all Char.isAlpha = true) : isWord s.toList = true := by
  subst hs
  rw [Text.fold, String.toList_ofList] at hne hw
  cases hl : s.toList with
  | nil => simp [hl] at hne
  | cons c cs =>
    rw [hl, List.all_map, List.all_cons, Bool.and_eq_true] at hw
    rw [isWord, Bool.and_eq_true]
    refine ⟨beginsIdent_of_foldChar hw.1, List.all_eq_true.mpr fun d hd => ?_⟩
    exact isIdent_of_beginsIdent (beginsIdent_of_foldChar (List.all_eq_true.mp hw.2 d hd))

theorem not_mem_of_isWord (hw : isWord cs = true) : '\\' ∉ cs := by
  cases cs with
  | nil => simp
  | cons c cs =>
    rw [isWord, Bool.and_eq_true] at hw
    intro hmem
    rcases List.mem_cons.mp hmem with rfl | hmem
    · exact absurd hw.1 (by decide)
    · exact absurd (List.all_eq_true.mp hw.2 _ hmem) (by decide)

/-- A single word is a keyword or a plain word, by its text alone. -/
theorem nameKind_of_isWord (hw : isWord cs = true) :
    nameKind cs = (Kind.keywords.lookup (Text.fold (String.ofList cs))).getD
      (if Kind.otherKeywords.contains (Text.fold (String.ofList cs)) then .otherKw else .word) := by
  have hmem := not_mem_of_isWord hw
  have hhead : cs.head? ≠ some '\\' := fun h => hmem (List.mem_of_mem_head? h)
  have hprefix : "namespace\\".toList.isPrefixOf (Text.fold (String.ofList cs)).toList = false := by
    refine Bool.eq_false_iff.mpr fun h => hmem ?_
    have hin : '\\' ∈ (Text.fold (String.ofList cs)).toList :=
      (List.isPrefixOf_iff_prefix.mp h).subset (by decide)
    rw [Text.fold, String.toList_ofList, String.toList_ofList] at hin
    obtain ⟨c, hc, hfold⟩ := List.mem_map.mp hin
    exact Scope.foldChar_eq_backslash hfold ▸ hc
  have hcontains : cs.contains '\\' = false := by simpa using hmem
  unfold nameKind
  simp only [hhead, if_false, hprefix, hcontains, Bool.false_eq_true]
  cases Kind.keywords.lookup (Text.fold (String.ofList cs)) <;> rfl

theorem nameKind_eq_word_iff (hw : isWord cs = true) :
    nameKind cs = .word ↔ Kind.isKeyword (String.ofList cs) = false := by
  have hall : ∀ k ∈ Kind.keywords.map (·.2), k ≠ .word := by decide
  rw [nameKind_of_isWord hw, Kind.isKeyword]
  cases h : Kind.keywords.lookup (Text.fold (String.ofList cs)) with
  | none => simp
  | some k => simpa using hall k (List.mem_map_of_mem (mem_of_lookup h))

theorem nameKind_ne_sign (hw : isWord cs = true) :
    nameKind cs ≠ .ampersand ∧ nameKind cs ≠ .openParen := by
  have hall : ∀ k ∈ Kind.keywords.map (·.2), k ≠ .ampersand ∧ k ≠ .openParen := by decide
  rw [nameKind_of_isWord hw]
  cases h : Kind.keywords.lookup (Text.fold (String.ofList cs)) with
  | none =>
    rw [Option.getD_none]
    split <;> exact ⟨nofun, nofun⟩
  | some k => exact hall k (List.mem_map_of_mem (mem_of_lookup h))

def NamesWord (p : Piece) : Prop :=
  p.kind.isTrivia = false → isWord p.text = true → p.kind = nameKind p.text

theorem ofShape_namesWord {shape : Shape} {n : Nat} (h : shapeTail c cs = (shape, n)) :
    ∀ p ∈ ofShape shape (c :: cs.take n), NamesWord p := by
  have hnone : ∀ kind, shape ≠ .name → (shape = .plain .whitespace → kind.isTrivia = true) →
      NamesWord ⟨kind, c :: cs.take n⟩ := by
    intro kind hs ht hk hw
    rw [ht ((shape_of_isWord h hw).resolve_right hs)] at hk
    cases hk
  cases shape with
  | plain kind =>
    refine List.forall_mem_singleton.mpr (hnone _ nofun ?_)
    rintro ⟨⟩
    rfl
  | name => exact List.forall_mem_singleton.mpr fun _ _ => rfl
  | sign => exact List.forall_mem_singleton.mpr (hnone _ nofun nofun)
  | docComment =>
    refine List.forall_mem_cons.mpr ⟨nofun, fun p hp ht => ?_⟩
    rw [docParts_isTrivia false _ p hp] at ht
    cases ht

theorem cut_namesWord (php : Bool) (cs : List Char) : ∀ p ∈ cut php cs, NamesWord p := by
  fun_induction cut php cs with
  | case1 => simp
  | case2 c cs shape n h ih => exact List.forall_mem_append.mpr ⟨ofShape_namesWord h, ih⟩
  | case3 | case4 =>
    refine List.forall_mem_cons.mpr ⟨fun ht => ?_, ‹_›⟩
    cases ht

def lastKind (before : Option Kind) : List Piece → Option Kind
  | [] => before
  | p :: ps => lastKind (if p.kind.isTrivia then before else some p.kind) ps

theorem lastKind_append (before : Option Kind) (ps : List Piece) (p : Piece) :
    lastKind before (ps ++ [p]) =
      if p.kind.isTrivia then lastKind before ps else some p.kind := by
  induction ps generalizing before with
  | nil => rfl
  | cons q ps ih => exact ih _

theorem role_isTrivia (h : p.kind.isTrivia = false) : (role before p after).isTrivia = false := by
  unfold role
  split
  · split
    · rfl
    · exact h
  · split
    · split <;> rfl
    · split
      · rfl
      · split
        · rfl
        · exact h

/-- What stands at an index after the pieces have been given their roles. -/
theorem getElem?_assign (before : Option Kind) (ps : List Piece) (i : Nat) :
    (assign before ps)[i]? = ps[i]?.map fun p =>
      if p.kind.isTrivia then p
      else
        let kind := role (lastKind before ((assign before ps).take i)) p (ps.drop (i + 1))
        { p with kind } := by
  fun_induction assign before ps generalizing i with
  | case1 => simp
  | case2 before p ps ht ih =>
    cases i with
    | zero => simp [ht]
    | succ i => simpa [lastKind, ht] using ih i
  | case3 before p ps ht kind ih =>
    cases i with
    | zero => simp [ht, lastKind, kind]
    | succ i =>
      have hkind : kind.isTrivia = false := role_isTrivia (by simpa using ht)
      simpa [lastKind, hkind] using ih i

/-- Only words and declaring keywords are given another kind. -/
theorem eq_of_role {k : Kind} (h : role before p after = k) (hk : k.isName = false)
    (hc : k ∉ [.functionKw, .closureKw, .anonymousClassKw, .enumKw]) : p.kind = k := by
  subst h
  revert hk hc
  unfold role
  split
  · split
    · exact nofun
    · exact fun _ _ => rfl
  · split
    · split <;> simp
    · split
      · simp
      · split
        · simp
        · exact fun _ _ => rfl

/-- Past what does not matter, the next piece is the one at an index. -/
theorem next?_drop {i j : Nat} (hi : i ≤ j) (hp : ps[j]? = some p) (hk : p.kind.isTrivia = false)
    (hgap : ∀ n, i ≤ n → n < j → ∀ q, ps[n]? = some q → q.kind.isTrivia = true) :
    next? (ps.drop i) = some (p, ps.drop (j + 1)) := by
  induction hn : j - i generalizing i with
  | zero =>
    obtain rfl : i = j := by omega
    obtain ⟨hlt, rfl⟩ := List.getElem?_eq_some_iff.mp hp
    rw [List.drop_eq_getElem_cons hlt, next?, hk]
    rfl
  | succ n ih =>
    have hlt : i < ps.length := by
      have := (List.getElem?_eq_some_iff.mp hp).1
      omega
    have hq := hgap i (Nat.le_refl i) (by omega) ps[i] (List.getElem?_eq_getElem hlt)
    rw [List.drop_eq_getElem_cons hlt, next?, if_pos hq]
    exact ih (by omega) (fun m hm => hgap m (by omega)) (by omega)

end Piece

namespace Tokens

structure NextSolid (ts : Tokens) (i j : Nat) : Prop where
  lt : i < j
  solid : ∃ k, ts.kind? j = some k ∧ k.isFiller = false
  fillers : ∀ n, i < n → n < j → ∃ k, ts.kind? n = some k ∧ k.isFiller = true

variable {ts : Tokens} {i j n : Nat} {t : Token} {k : Kind}

theorem solid?_eq_some_iff : ts.solid? i = some j ↔ i ≤ j ∧
    (∃ k, ts.kind? j = some k ∧ k.isFiller = false) ∧
    ∀ n, i ≤ n → n < j → ∃ k, ts.kind? n = some k ∧ k.isFiller = true := by
  have hkind : ∀ {i}, (hi : i < ts.size) → ts.kind? i = some ts[i].kind := by
    intro i hi
    simp [kind?, hi]
  fun_induction solid? ts i with
  | case1 i hi hfiller ih =>
    refine Iff.trans ih ⟨?_, ?_⟩
    · rintro ⟨hle, hsolid, hgap⟩
      refine ⟨by omega, hsolid, fun n hin hn => ?_⟩
      rcases Nat.eq_or_lt_of_le hin with rfl | hin
      · exact ⟨_, hkind hi, hfiller⟩
      · exact hgap n hin hn
    · rintro ⟨hle, ⟨k, hk, hsolid⟩, hgap⟩
      refine ⟨Nat.lt_of_le_of_ne hle fun heq => ?_, ⟨k, hk, hsolid⟩, fun n hin => hgap n (by omega)⟩
      subst heq
      obtain rfl := Option.some.inj ((hkind hi).symm.trans hk)
      rw [hfiller] at hsolid
      cases hsolid
  | case2 i hi hfiller =>
    rw [Option.some.injEq]
    constructor
    · rintro rfl
      exact ⟨Nat.le_refl i, ⟨_, hkind hi, by simpa using hfiller⟩, by omega⟩
    · rintro ⟨hle, -, hgap⟩
      refine (Nat.eq_or_lt_of_le hle).resolve_right fun hlt => hfiller ?_
      obtain ⟨k, hk, hk'⟩ := hgap i (Nat.le_refl i) hlt
      obtain rfl := Option.some.inj ((hkind hi).symm.trans hk)
      exact hk'
  | case3 i hi =>
    refine iff_of_false nofun ?_
    rintro ⟨hle, ⟨k, hk, -⟩, -⟩
    have := lt_size_of_kind? hk
    omega

theorem solid?_succ_eq_some_iff : ts.solid? (i + 1) = some j ↔ ts.NextSolid i j :=
  solid?_eq_some_iff.trans ⟨fun ⟨hle, hs, hg⟩ => ⟨hle, hs, hg⟩, fun h => ⟨h.lt, h.solid, h.fillers⟩⟩

theorem isTrivia_of_isFiller (h : k.isFiller = true) : k.isTrivia = true := by
  simp [Kind.isTrivia, h]

/-- The token before a run of fillers. -/
theorem NextSolid.previous?_eq (h : ts.NextSolid i j) (ht : ts[i]? = some t)
    (hk : t.kind.isTrivia = false) : ts.previous? j = some t := by
  obtain ⟨hlt, -, hgap⟩ := h
  induction j with
  | zero => omega
  | succ j ih =>
    rw [previous?]
    rcases Nat.eq_or_lt_of_le (Nat.le_of_lt_succ hlt) with rfl | hlt
    · simp [ht, hk]
    · obtain ⟨k, hj, hfiller⟩ := hgap j hlt (Nat.lt_succ_self j)
      obtain ⟨u, hu, rfl⟩ := Option.map_eq_some_iff.mp hj
      simp only [hu, isTrivia_of_isFiller hfiller, if_true]
      exact ih hlt fun n hin hn => hgap n hin (Nat.lt_succ_of_lt hn)

structure OpensList (ts : Tokens) (j : Nat) (w : String) : Prop where
  token : ∃ t, ts[j]? = some t ∧ t.kind.isTrivia = false ∧ t.text = w
  word : Piece.isWord w.toList = true
  paren : ∃ k, ts.NextSolid j k ∧ ts.kind? k = some .openParen

theorem opensList_of_solid? {k : Nat}
    (ht : ts[j]?.map (fun t => (t.kind.isTrivia, t.text)) = some (false, w))
    (hw : Piece.isWord w.toList = true) (hn : ts.solid? (j + 1) = some k)
    (hk : ts.kind? k = some .openParen) : ts.OpensList j w := by
  obtain ⟨t, ht, heq⟩ := Option.map_eq_some_iff.mp ht
  obtain ⟨htrivia, htext⟩ := Prod.ext_iff.mp heq
  exact ⟨⟨t, ht, htrivia, htext⟩, hw, k, solid?_succ_eq_some_iff.mp hn, hk⟩

/-- What stands at an index comes before a word that opens a parameter list; the flag tells whether
the sign for returning by reference is between them. -/
inductive Introduces (ts : Tokens) (i : Nat) (w : String) : Bool → Prop
  | plain {j : Nat} (hn : ts.NextSolid i j) (hw : ts.OpensList j w) : Introduces ts i w false
  | byReference {a j : Nat} (ha : ts.NextSolid i a) (hk : ts.kind? a = some .ampersand)
    (hn : ts.NextSolid a j) (hw : ts.OpensList j w) : Introduces ts i w true

def NamesMember (ts : Tokens) (i : Nat) : Prop :=
  (ts.previous? i).map (·.kind) ∈ [some .arrow, some .doubleColon, some .functionKw]

instance : Decidable (ts.NamesMember i) :=
  inferInstanceAs (Decidable (_ ∈ _))

end Tokens

section
open Piece Tokens
variable {source : String} {i j : Nat} {t : Token} {p : Piece}

def pieces (source : String) : List Piece :=
  cut false source.toList

theorem getElem?_roles (source : String) (i : Nat) :
    (assign none (pieces source))[i]? =
      (tokenize source)[i]?.map fun t => ⟨t.kind, t.text.toList⟩ := by
  have h := congrArg (fun l => (l[i]?).map fun x => (⟨x.1, x.2.toList⟩ : Piece))
    (tokenize_pieces source)
  simpa [Option.map_map, Function.comp_def, pieces] using h.symm

theorem exists_piece (ht : (tokenize source)[i]? = some t) : ∃ p, (pieces source)[i]? = some p ∧
    ⟨t.kind, t.text.toList⟩ = if p.kind.isTrivia then p else
      ⟨role (lastKind none ((assign none (pieces source)).take i)) p
        ((pieces source).drop (i + 1)), p.text⟩ := by
  have h := getElem?_roles source i
  rw [ht, getElem?_assign, Option.map_some] at h
  obtain ⟨p, hp, he⟩ := Option.map_eq_some_iff.mp h
  exact ⟨p, hp, he.symm⟩

/-- Giving pieces their roles keeps apart what matters to the grammar and what does not. -/
theorem exists_piece_isTrivia (ht : (tokenize source)[i]? = some t) :
    ∃ p, (pieces source)[i]? = some p ∧ p.text = t.text.toList ∧
      p.kind.isTrivia = t.kind.isTrivia := by
  obtain ⟨p, hp, he⟩ := exists_piece ht
  refine ⟨p, hp, ?_⟩
  split at he
  · rw [← he]
    exact ⟨rfl, rfl⟩
  · next hk =>
    have hk : p.kind.isTrivia = false := by simpa using hk
    obtain ⟨hkind, htext⟩ := Piece.mk.inj he
    exact ⟨htext.symm, by rw [hk, hkind, role_isTrivia hk]⟩

theorem kind_previous? (source : String) (i : Nat) :
    ((tokenize source).previous? i).map (·.kind) =
      lastKind none ((assign none (pieces source)).take i) := by
  induction i with
  | zero => rfl
  | succ i ih =>
    rw [previous?, List.take_add_one, getElem?_roles]
    cases (tokenize source)[i]? with
    | none => simpa using ih
    | some t =>
      rw [Option.map_some, Option.toList_some, lastKind_append, ← ih]
      dsimp only
      split <;> rfl

/-- A token that matters to the grammar is a piece in the role that its surroundings give it. -/
theorem exists_role (ht : (tokenize source)[i]? = some t) (hk : t.kind.isTrivia = false) :
    ∃ p, (pieces source)[i]? = some p ∧ p.text = t.text.toList ∧ p.kind.isTrivia = false ∧
      t.kind = role (((tokenize source).previous? i).map (·.kind)) p
        ((pieces source).drop (i + 1)) := by
  obtain ⟨p, hp, htext, htrivia⟩ := exists_piece_isTrivia ht
  obtain ⟨p', hp', he⟩ := exists_piece ht
  obtain rfl := Option.some.inj (hp.symm.trans hp')
  rw [htrivia, hk] at he
  refine ⟨p, hp, htext, htrivia.trans hk, ?_⟩
  rw [kind_previous?]
  exact (Piece.mk.inj he).1

/-- The next piece is that of the next token that is no filler, if that matters to the grammar. -/
theorem next?_of_nextSolid (h : (tokenize source).NextSolid i j)
    (ht : (tokenize source)[j]? = some t) (hk : t.kind.isTrivia = false) :
    ∃ p, (pieces source)[j]? = some p ∧
      next? ((pieces source).drop (i + 1)) = some (p, (pieces source).drop (j + 1)) := by
  obtain ⟨p, hp, -, htrivia⟩ := exists_piece_isTrivia ht
  refine ⟨p, hp, next?_drop h.lt hp (htrivia.trans hk) fun n hin hn q hq => ?_⟩
  obtain ⟨k, hkn, hfiller⟩ := h.fillers n hin hn
  obtain ⟨u, hu, rfl⟩ := Option.map_eq_some_iff.mp hkn
  obtain ⟨q', hq', -, htrivia'⟩ := exists_piece_isTrivia hu
  obtain rfl := Option.some.inj (hq.symm.trans hq')
  rw [htrivia', isTrivia_of_isFiller hfiller]

/-- A single word in the code is a piece of the kind that its text tells. -/
theorem exists_word (ht : (tokenize source)[i]? = some t) (hk : t.kind.isTrivia = false)
    (hw : isWord t.text.toList = true) : ∃ p, (pieces source)[i]? = some p ∧
      p.text = t.text.toList ∧ p.kind = nameKind t.text.toList ∧
      t.kind = role (((tokenize source).previous? i).map (·.kind)) p
        ((pieces source).drop (i + 1)) := by
  obtain ⟨p, hp, htext, htrivia, hrole⟩ := exists_role ht hk
  have hnames := cut_namesWord false source.toList p (List.mem_of_getElem? hp) htrivia
  rw [htext] at hnames
  exact ⟨p, hp, htext, hnames hw, hrole⟩

variable {w : String} {byRef : Bool} {f : Token}

/-- The name of a function is no parameter list. -/
theorem opensParameters_of_introduces (h : (tokenize source).Introduces i w byRef) :
    opensParameters ((pieces source).drop (i + 1)) = false := by
  have hname : ∀ {i j}, (tokenize source).NextSolid i j → (tokenize source).OpensList j w →
      ∃ p rest, next? ((pieces source).drop (i + 1)) = some (p, rest) ∧
        p.kind ≠ .ampersand ∧ p.kind ≠ .openParen := by
    rintro i j hn ⟨⟨t, ht, hk, rfl⟩, hw, -⟩
    obtain ⟨p, hp, -, hkind, -⟩ := exists_word ht hk hw
    obtain ⟨p', hp', hnext⟩ := next?_of_nextSolid hn ht hk
    obtain rfl := Option.some.inj (hp.symm.trans hp')
    exact ⟨p, _, hnext, hkind ▸ nameKind_ne_sign hw⟩
  unfold opensParameters
  cases h with
  | plain hn hw =>
    obtain ⟨p, rest, hnext, hamp, hparen⟩ := hname hn hw
    simp [hnext, hamp, hparen]
  | @byReference a j ha hk hn hw =>
    obtain ⟨t, ht, hkind⟩ := Option.map_eq_some_iff.mp hk
    obtain ⟨p, hp, hnext⟩ := next?_of_nextSolid ha ht (by rw [hkind]; rfl)
    obtain ⟨p', hp', -, -, hrole⟩ := exists_role ht (by rw [hkind]; rfl)
    obtain rfl := Option.some.inj (hp.symm.trans hp')
    have hamp : p.kind = .ampersand := eq_of_role (hrole.symm.trans hkind) rfl (by decide)
    obtain ⟨q, rest, hnext', -, hparen⟩ := hname hn hw
    simp [hnext, hamp, hnext', hparen]

/-- A function with a name is no closure. -/
theorem kind_of_introduces (hf : (tokenize source)[i]? = some f) (hcode : f.kind.isTrivia = false)
    (hword : Text.fold f.text = "function") (hmember : ¬(tokenize source).NamesMember i)
    (h : (tokenize source).Introduces i w byRef) : f.kind = .functionKw := by
  have hw : isWord f.text.toList = true := isWord_of_fold hword (by decide) (by decide)
  obtain ⟨p, -, -, hkind, hrole⟩ := exists_word hf hcode hw
  have hraw : p.kind = .functionKw := by
    rw [hkind, nameKind_of_isWord hw, String.ofList_toList, hword]
    rfl
  rw [hrole, role, if_neg, if_pos hraw, opensParameters_of_introduces h]
  · rfl
  · rintro (hb | hb | hb) <;> exact hmember (by simp [NamesMember, hb])

/-- The kind of a word that opens a parameter list: a name after `function`, and after the sign for
returning by reference whatever its text tells. -/
theorem kind_of_opensList (hw : (tokenize source).OpensList j w)
    (ht : (tokenize source)[j]? = some t) (hbefore : (tokenize source).previous? j = some f) :
    (f.kind = .functionKw → t.kind = .word) ∧
      (f.kind = .ampersand → (t.kind = .word ↔ Kind.isKeyword w = false)) := by
  obtain ⟨⟨t', ht', hk, rfl⟩, hword, ⟨k, hn, hparen⟩⟩ := hw
  obtain rfl := Option.some.inj (ht.symm.trans ht')
  obtain ⟨p, -, htext, hkind, hrole⟩ := exists_word ht hk hword
  rw [hrole, hbefore, Option.map_some]
  refine ⟨fun hfun => ?_, fun hamp => ?_⟩
  · simp [role, hfun, htext, hword]
  · obtain ⟨u, hu, hopen⟩ := Option.map_eq_some_iff.mp hparen
    obtain ⟨q, hq, hnext⟩ := next?_of_nextSolid hn hu (by rw [hopen]; rfl)
    obtain ⟨q', hq', -, -, hqrole⟩ := exists_role hu (by rw [hopen]; rfl)
    obtain rfl := Option.some.inj (hq.symm.trans hq')
    have hqopen : q.kind = .openParen := eq_of_role (hqrole.symm.trans hopen) rfl (by decide)
    rw [← String.ofList_toList (s := t.text), ← nameKind_eq_word_iff hword, ← hkind]
    unfold role
    rw [if_neg (by simp [hamp])]
    split
    · next hfun => simp [hfun, opensParameters, hnext, hqopen]
    · rw [if_neg (by simp [hamp]), if_neg (by simp [hnext, hqopen])]

/-- A word that opens a parameter list after `function` names the function, save a keyword after the
sign for returning by reference. -/
theorem functions_named (hf : (tokenize source)[i]? = some f) (hcode : f.kind.isTrivia = false)
    (hword : Text.fold f.text = "function") (hmember : ¬(tokenize source).NamesMember i)
    (h : (tokenize source).Introduces i w byRef) : f.kind = .functionKw ∧
      (tokenize source).declaredName i = if byRef && Kind.isKeyword w then none else some w := by
  have hfun := kind_of_introduces hf hcode hword hmember h
  have hkind : (tokenize source).kind? i = some .functionKw := by simp [kind?, hf, hfun]
  refine ⟨hfun, ?_⟩
  cases h with
  | @plain j hn hw =>
    obtain ⟨t, ht, hk, rfl⟩ := hw.token
    have hname : t.kind = .word := (kind_of_opensList hw ht (hn.previous?_eq hf hcode)).1 hfun
    have hj : (tokenize source).kind? j = some .word := by simp [kind?, ht, hname]
    simp [declaredName, hkind, solid?_succ_eq_some_iff.mpr hn, hj, ht, hname]
  | @byReference a j ha hk hn hw =>
    obtain ⟨t, ht, htrivia, rfl⟩ := hw.token
    obtain ⟨u, hu, hamp⟩ := Option.map_eq_some_iff.mp hk
    have hiff := (kind_of_opensList hw ht (hn.previous?_eq hu (by rw [hamp]; rfl))).2 hamp
    simp [declaredName, hkind, solid?_succ_eq_some_iff.mpr ha, hk,
      solid?_succ_eq_some_iff.mpr hn, ht, hiff]
    cases Kind.isKeyword t.text <;> rfl

/-- Behind a comment `list` names a method, and so does `items` after the sign for returning by
reference. -/
theorem functions_named_method :
    (tokenize "<?php class A { function /**/ list() {} }").declaredName 7 = some "list" ∧
      (tokenize "<?php class A { function &items() {} }").declaredName 7 = some "items" := by
  constructor
  · obtain ⟨hf, hmember, hn, ht, hparen, hk⟩ :
        let ts := tokenize "<?php class A { function /**/ list() {} }"
        ts[7]?.map (fun f => (f.kind.isTrivia, Text.fold f.text)) = some (false, "function") ∧
        ¬ts.NamesMember 7 ∧ ts.solid? 8 = some 11 ∧
        ts[11]?.map (fun t => (t.kind.isTrivia, t.text)) = some (false, "list") ∧
        ts.solid? 12 = some 12 ∧ ts.kind? 12 = some .openParen := by decide +kernel
    obtain ⟨f, hf, heq⟩ := Option.map_eq_some_iff.mp hf
    obtain ⟨hcode, hword⟩ := Prod.ext_iff.mp heq
    exact (functions_named hf hcode hword hmember (.plain (solid?_succ_eq_some_iff.mp hn)
      (opensList_of_solid? ht (by decide) hparen hk))).2
  · obtain ⟨hf, hmember, ha, hamp, hn, ht, hparen, hk⟩ :
        let ts := tokenize "<?php class A { function &items() {} }"
        ts[7]?.map (fun f => (f.kind.isTrivia, Text.fold f.text)) = some (false, "function") ∧
        ¬ts.NamesMember 7 ∧ ts.solid? 8 = some 9 ∧ ts.kind? 9 = some .ampersand ∧
        ts.solid? 10 = some 10 ∧
        ts[10]?.map (fun t => (t.kind.isTrivia, t.text)) = some (false, "items") ∧
        ts.solid? 11 = some 11 ∧ ts.kind? 11 = some .openParen := by decide +kernel
    obtain ⟨f, hf, heq⟩ := Option.map_eq_some_iff.mp hf
    obtain ⟨hcode, hword⟩ := Prod.ext_iff.mp heq
    exact (functions_named hf hcode hword hmember (.byReference (solid?_succ_eq_some_iff.mp ha) hamp
      (solid?_succ_eq_some_iff.mp hn) (opensList_of_solid? ht (by decide) hparen hk))).2

/-- After the sign for returning by reference `list` is no name. -/
theorem not_functions_named : ¬∀ (source : String) (i : Nat) (f : Token) (w : String)
    (byRef : Bool), (tokenize source)[i]? = some f → f.kind.isTrivia = false →
    Text.fold f.text = "function" → ¬(tokenize source).NamesMember i →
    (tokenize source).Introduces i w byRef →
    f.kind = .functionKw ∧ (tokenize source).declaredName i = some w := by
  intro h
  obtain ⟨hf, hmember, ha, hamp, hn, ht, hparen, hk, hnone⟩ :
      let ts := tokenize "<?php class A { function &list() {} }"
      ts[7]?.map (fun f => (f.kind.isTrivia, Text.fold f.text)) = some (false, "function") ∧
      ¬ts.NamesMember 7 ∧ ts.solid? 8 = some 9 ∧ ts.kind? 9 = some .ampersand ∧
      ts.solid? 10 = some 10 ∧
      ts[10]?.map (fun t => (t.kind.isTrivia, t.text)) = some (false, "list") ∧
      ts.solid? 11 = some 11 ∧ ts.kind? 11 = some .openParen ∧
      ts.declaredName 7 ≠ some "list" := by decide +kernel
  obtain ⟨f, hf, heq⟩ := Option.map_eq_some_iff.mp hf
  obtain ⟨hcode, hword⟩ := Prod.ext_iff.mp heq
  exact hnone (h _ 7 f "list" true hf hcode hword hmember
    (.byReference (solid?_succ_eq_some_iff.mp ha) hamp (solid?_succ_eq_some_iff.mp hn)
      (opensList_of_solid? ht (by decide) hparen hk))).2

end
end PhpDoc
