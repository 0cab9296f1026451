import PhpDoc.Proofs.Lookahead
/-!
How far the cuts of a source text look ahead. Any stretch of code and of what stands outside of it is
cut off in the same way from every text that agrees with its own text and a few characters more, if
the literals in it have an end.
-/
namespace PhpDoc
namespace Piece
open Text

section
variable {c : Char} {cs ds label : List Char} {n : Nat}

theorem signTail_agree (h : Agree 2 cs ds) : signTail c ds = signTail c cs := by
  have hshort : ∀ s ∈ longSigns, s.toList.length ≤ 3 := by decide
  have hfind : ∀ signs : List String, (∀ s ∈ signs, s.toList.length ≤ 3) →
      signs.find? (fun s => s.toList.isPrefixOf (c :: ds)) =
        signs.find? fun s => s.toList.isPrefixOf (c :: cs) := by
    intro signs hsigns
    induction signs with
    | nil => rfl
    | cons s signs ih =>
      obtain ⟨hs, hsigns⟩ := List.forall_mem_cons.mp hsigns
      rw [List.find?_cons, List.find?_cons, isPrefixOf_agree (h.cons.mono hs), ih hsigns]
  rw [signTail, signTail, hfind longSigns hshort]

def lineTail (cs : List Char) : Nat :=
  run (fun d => d != '\r' && d != '\n') cs

theorem commentShape?_doc (rest : List Char) : commentShape? '/' ('*' :: '*' :: rest) =
    if rest.head? = some '/' then some (.plain .comment, 3)
    else some (.docComment, 2 + commentTail rest) :=
  rfl

theorem commentShape?_block {rest : List Char} (h : rest.head? ≠ some '*') :
    commentShape? '/' ('*' :: rest) = some (.plain .comment, 1 + commentTail rest) := by
  unfold commentShape?
  simp only
  split <;> simp_all

theorem commentShape?_line (rest : List Char) :
    commentShape? '/' ('/' :: rest) = some (.plain .comment, lineTail ('/' :: rest)) :=
  rfl

theorem commentShape?_hash (cs : List Char) : commentShape? '#' cs =
    if cs.head? = some '[' then none else some (.plain .comment, lineTail cs) := by
  cases cs with
  | nil => rfl
  | cons d cs =>
    by_cases hd : d = '['
    · rw [hd]
      rfl
    · rw [List.head?_cons, if_neg (by simpa using hd)]
      unfold commentShape?
      simp only
      split <;> simp_all
      rfl

theorem commentShape?_none (hc : c ≠ '#') (h : c = '/' → cs.head? ≠ some '*' ∧ cs.head? ≠ some '/') :
    commentShape? c cs = none := by
  unfold commentShape?
  simp only
  split <;> simp_all

theorem commentShape?_agree (ha : Agree (((commentShape? c cs).map (·.2)).getD 0 + 3) cs ds) :
    commentShape? c ds = commentShape? c cs := by
  have hhead := ha.head?
  by_cases hhash : c = '#'
  · subst hhash
    rw [commentShape?_hash] at ha
    rw [commentShape?_hash, commentShape?_hash, hhead]
    split
    · rfl
    · rename_i hopen
      rw [hhead, if_neg hopen] at ha
      rw [lineTail, lineTail, run_agree (ha.mono (by simp [lineTail]))]
  by_cases hnone : c = '/' → cs.head? ≠ some '*' ∧ cs.head? ≠ some '/'
  · rw [commentShape?_none hhash hnone, commentShape?_none hhash (hhead ▸ hnone)]
  obtain ⟨rfl, hsecond⟩ := Classical.not_imp.mp hnone
  by_cases hstar : cs.head? = some '*'
  · obtain ⟨rest, rfl⟩ := List.head?_eq_some_iff.mp hstar
    obtain ⟨es, rfl, hes⟩ := ha.exists_cons
    by_cases hdoc : rest.head? = some '*'
    · obtain ⟨tail, rfl⟩ := List.head?_eq_some_iff.mp hdoc
      obtain ⟨fs, rfl, hfs⟩ := hes.exists_cons
      have hslash := hfs.head?
      rw [commentShape?_doc, commentShape?_doc, ← hslash]
      split
      · rfl
      · rename_i hopen
        rw [commentShape?_doc, if_neg hopen] at hfs
        rw [commentTail_agree (hfs.mono (by simp))]
    · rw [commentShape?_block hdoc] at hes
      rw [commentShape?_block hdoc, commentShape?_block (hes.head? ▸ hdoc),
        commentTail_agree (hes.mono (by simp; omega))]
  · obtain ⟨rest, rfl⟩ := List.head?_eq_some_iff.mp
      (Classical.not_not.mp fun hslash => hsecond ⟨hstar, hslash⟩)
    obtain ⟨es, rfl, -⟩ := ha.exists_cons
    rw [commentShape?_line] at ha
    rw [commentShape?_line, commentShape?_line, lineTail, lineTail,
      run_agree (ha.mono (by simp [lineTail]))]

def Ends (c : Char) (cs : List Char) : Prop :=
  (c = '\'' ∨ c = '"' ∨ c.toNat = 0x60 → quoteTail c cs ≠ none) ∧
    ∀ rest, c = '<' → cs = '<' :: '<' :: rest → heredocTail rest ≠ none

def isQuote (c : Char) : Prop :=
  c = '\'' ∨ c = '"' ∨ c.toNat = 0x60

instance : DecidablePred isQuote :=
  fun c => inferInstanceAs (Decidable (c = '\'' ∨ c = '"' ∨ c.toNat = 0x60))

theorem literalShape?_variable (d : Char) (rest : List Char) : literalShape? '$' (d :: rest) =
    if beginsIdent d then some (.plain .variable, 1 + run isIdent rest) else none :=
  rfl

theorem literalShape?_heredoc (rest : List Char) : literalShape? '<' ('<' :: '<' :: rest) =
    (heredocTail rest).map fun n => (.plain .heredoc, 2 + n) :=
  rfl

theorem literalShape?_fraction (cs : List Char) : literalShape? '.' cs =
    (fractionTail cs).map fun n => (.plain .decimal, n) := by
  unfold literalShape?
  split <;> simp_all

theorem literalShape?_quoted (hc : isQuote c) : literalShape? c cs =
    (quoteTail c cs).map fun n => (.plain .quotedText, n) := by
  have hplain : ∀ d : Char, isQuote d → d ≠ '$' ∧ d ≠ '<' ∧ d ≠ '.' := by
    rintro d hd
    refine ⟨?_, ?_, ?_⟩ <;> rintro rfl <;> revert hd <;> simp [isQuote]
  obtain ⟨h₁, h₂, h₃⟩ := hplain c hc
  unfold literalShape?
  split
  · exact absurd rfl h₁
  · exact absurd rfl h₂
  · exact absurd rfl h₃
  · exact if_pos hc

theorem not_isQuote_of_isDigit (hc : c.isDigit = true) : ¬isQuote c := by
  rintro (rfl | rfl | hback)
  · cases hc
  · cases hc
  · rw [← Char.ofNat_toNat c, hback] at hc
    cases hc

theorem literalShape?_digit (hc : c.isDigit = true) : literalShape? c cs =
    some (.plain (numberTail c cs).1, (numberTail c cs).2) := by
  unfold literalShape?
  split
  · cases hc
  · cases hc
  · cases hc
  · exact (if_neg (not_isQuote_of_isDigit hc)).trans (if_pos hc)

theorem literalShape?_none (hquote : ¬isQuote c) (hdigit : ¬c.isDigit = true) (hdot : c ≠ '.')
    (hdollar : c = '$' → cs = []) (hheredoc : c = '<' → ∀ rest, cs ≠ '<' :: '<' :: rest) :
    literalShape? c cs = none := by
  unfold literalShape?
  split
  · cases hdollar rfl
  · exact absurd rfl (hheredoc rfl _)
  · exact absurd rfl hdot
  · exact (if_neg hquote).trans (if_neg hdigit)

theorem literalShape?_agree (hends : Ends c cs)
    (ha : Agree (((literalShape? c cs).map (·.2)).getD 0 + 4) cs ds) :
    literalShape? c ds = literalShape? c cs := by
  by_cases hquote : isQuote c
  · have hback : c ≠ '\\' := by
      rintro rfl
      revert hquote
      simp [isQuote]
    obtain ⟨n, hn⟩ := Option.ne_none_iff_exists'.mp (hends.1 hquote)
    rw [literalShape?_quoted hquote, hn] at ha
    rw [literalShape?_quoted hquote, literalShape?_quoted hquote, hn,
      quoteTail_agree hback hn (ha.mono (by simp))]
  by_cases hdigit : c.isDigit = true
  · rw [literalShape?_digit hdigit] at ha
    rw [literalShape?_digit hdigit, literalShape?_digit hdigit, numberTail_agree ha]
  by_cases hdot : c = '.'
  · subst hdot
    rw [literalShape?_fraction] at ha
    rw [literalShape?_fraction, literalShape?_fraction, fractionTail_agree (ha.mono _)]
    cases fractionTail cs <;> simp
  by_cases hdollar : c = '$'
  · subst hdollar
    cases cs with
    | nil => rw [ha.eq_nil]
    | cons d rest =>
      obtain ⟨es, rfl, hes⟩ := ha.exists_cons
      rw [literalShape?_variable] at hes
      rw [literalShape?_variable, literalShape?_variable]
      split
      · rename_i hd
        rw [if_pos hd] at hes
        rw [run_agree (hes.mono (by simp; omega))]
      · rfl
  by_cases hheredoc : c = '<' ∧ ∃ rest, cs = '<' :: '<' :: rest
  · obtain ⟨rfl, rest, rfl⟩ := hheredoc
    obtain ⟨es, rfl, hes⟩ := ha.exists_cons
    obtain ⟨fs, rfl, hfs⟩ := hes.exists_cons
    obtain ⟨n, hn⟩ := Option.ne_none_iff_exists'.mp (hends.2 rest rfl rfl)
    rw [literalShape?_heredoc, hn] at hfs
    rw [literalShape?_heredoc, literalShape?_heredoc, hn,
      heredocTail_agree hn (hfs.mono (by simp; omega))]
  · have hheredoc' : c = '<' → ∀ rest, ds ≠ '<' :: '<' :: rest := by
      rintro rfl rest rfl
      obtain ⟨es, rfl, hes⟩ := ha.symm.exists_cons
      obtain ⟨fs, rfl, -⟩ := hes.exists_cons
      exact hheredoc ⟨rfl, fs, rfl⟩
    rw [literalShape?_none hquote hdigit hdot (absurd · hdollar) hheredoc',
      literalShape?_none hquote hdigit hdot (absurd · hdollar)
        fun hc rest hcs => hheredoc ⟨hc, rest, hcs⟩]

theorem nameShape?_name (hc : beginsIdent c = true) (cs : List Char) :
    nameShape? c cs = some (.name, nameTail cs) :=
  if_pos hc

theorem nameShape?_absolute (d : Char) (rest : List Char) : nameShape? '\\' (d :: rest) =
    if beginsIdent d then some (.name, 1 + nameTail rest) else none :=
  rfl

theorem nameShape?_none (hc : ¬beginsIdent c = true) (h : c = '\\' → cs = []) :
    nameShape? c cs = none := by
  refine (if_neg hc).trans ?_
  split
  · cases h rfl
  · rfl

theorem nameShape?_agree (ha : Agree (((nameShape? c cs).map (·.2)).getD 0 + 3) cs ds) :
    nameShape? c ds = nameShape? c cs := by
  by_cases hc : beginsIdent c = true
  · rw [nameShape?_name hc] at ha
    rw [nameShape?_name hc, nameShape?_name hc, nameTail_agree (ha.mono (by simp))]
  by_cases hback : c = '\\'
  · subst hback
    cases cs with
    | nil => rw [ha.eq_nil]
    | cons d rest =>
      obtain ⟨es, rfl, hes⟩ := ha.exists_cons
      rw [nameShape?_absolute] at hes
      rw [nameShape?_absolute, nameShape?_absolute]
      split
      · rename_i hd
        rw [if_pos hd] at hes
        rw [nameTail_agree (hes.mono (by simp))]
      · rfl
  · rw [nameShape?_none hc (absurd · hback), nameShape?_none hc (absurd · hback)]

theorem shapeTail_closeTag (rest : List Char) :
    shapeTail '?' ('>' :: rest) = (.plain .closeTag, 1 + breakWidth rest) :=
  rfl

theorem shapeTail_eq (h : c = '?' → cs.head? ≠ some '>') : shapeTail c cs =
    if isBlank c then (.plain .whitespace, run isBlank cs)
    else ((commentShape? c cs).or ((literalShape? c cs).or (nameShape? c cs))).getD
      (.sign, signTail c cs) := by
  unfold shapeTail
  split
  · cases h rfl rfl
  · split
    · rfl
    · cases commentShape? c cs with
      | some r => rfl
      | none =>
        cases literalShape? c cs with
        | some r => rfl
        | none => cases nameShape? c cs <;> rfl

theorem shapeTail_agree (hends : Ends c cs) (ha : Agree ((shapeTail c cs).2 + 4) cs ds) :
    shapeTail c ds = shapeTail c cs := by
  have hhead := ha.head?
  by_cases hclose : c = '?' ∧ cs.head? = some '>'
  · obtain ⟨rfl, hclose⟩ := hclose
    obtain ⟨rest, rfl⟩ := List.head?_eq_some_iff.mp hclose
    obtain ⟨es, rfl, hes⟩ := ha.exists_cons
    rw [shapeTail_closeTag, shapeTail_closeTag, breakWidth_agree (hes.mono (by omega))]
  have hopen : c = '?' → cs.head? ≠ some '>' := fun hc hcs => hclose ⟨hc, hcs⟩
  rw [shapeTail_eq hopen] at ha
  rw [shapeTail_eq hopen, shapeTail_eq (hhead ▸ hopen)]
  by_cases hblank : isBlank c = true
  · rw [if_pos hblank] at ha
    rw [if_pos hblank, if_pos hblank, run_agree (ha.mono (by simp))]
  rw [if_neg hblank] at ha
  rw [if_neg hblank, if_neg hblank]
  have hsame : ∀ {o : Option (Shape × Nat)} {r : Shape × Nat} {k n : Nat}, o = some r →
      Agree (r.2 + n) cs ds → k ≤ n → Agree ((o.map (·.2)).getD 0 + k) cs ds := by
    rintro o r k n rfl h hk
    exact h.mono (Nat.add_le_add_left hk _)
  cases hcomment : commentShape? c cs with
  | some r =>
    rw [hcomment] at ha
    rw [commentShape?_agree (hsame hcomment ha (by decide)), hcomment]
    rfl
  | none =>
    have hcomment' : commentShape? c ds = commentShape? c cs :=
      commentShape?_agree (by rw [hcomment]; exact ha.mono (by simp))
    rw [hcomment', hcomment]
    rw [hcomment] at ha
    cases hliteral : literalShape? c cs with
    | some r =>
      rw [hliteral] at ha
      rw [literalShape?_agree hends (hsame hliteral ha (by decide)), hliteral]
      rfl
    | none =>
      have hliteral' : literalShape? c ds = literalShape? c cs :=
        literalShape?_agree hends (by rw [hliteral]; exact ha.mono (by simp))
      rw [hliteral', hliteral]
      rw [hliteral] at ha
      cases hname : nameShape? c cs with
      | some r =>
        rw [hname] at ha
        rw [nameShape?_agree (hsame hname ha (by decide)), hname]
        rfl
      | none =>
        have hname' : nameShape? c ds = nameShape? c cs :=
          nameShape?_agree (by rw [hname]; exact ha.mono (by simp))
        rw [hname', hname]
        exact congrArg (Prod.mk Shape.sign) (signTail_agree (ha.mono (by omega)))

theorem beforeTag_agree (ha : Agree (beforeTag cs + 2) cs ds) : beforeTag ds = beforeTag cs := by
  fun_induction beforeTag cs generalizing ds with
  | case1 =>
    obtain ⟨es, rfl, hes⟩ := ha.exists_cons
    obtain ⟨fs, rfl, -⟩ := hes.exists_cons
    rfl
  | case2 c cs hopen ih =>
    obtain ⟨es, rfl, hes⟩ := ha.exists_cons
    rw [beforeTag, ih hes]
    rintro rest rfl rfl
    obtain ⟨tail, htail⟩ := List.head?_eq_some_iff.mp (hes.head?.trans rfl)
    exact hopen tail rfl htail
  | case3 => rw [ha.eq_nil]; rfl

def blankTail (cs : List Char) : Nat :=
  if cs = [] then 3
  else if cs.take 2 = ['\r', '\n'] then 5
  else if cs.head?.any isBlank then 4
  else 0

theorem blankTail_agree (ha : Agree (blankTail cs + 1) cs ds) : blankTail ds = blankTail cs := by
  have hreturn : isBlank '\r' = true := by decide
  cases cs with
  | nil => rw [ha.eq_nil]
  | cons c cs =>
    obtain ⟨es, rfl, -⟩ := ha.exists_cons
    by_cases hc : isBlank c = true
    · have htake : Agree 2 (c :: cs) (c :: es) := by
        refine ha.mono ?_
        simp only [blankTail, List.head?_cons, Option.any_some, hc, if_true]
        split
        · decide
        · split <;> decide
      simp only [blankTail, List.head?_cons, Option.any_some, reduceCtorEq, if_false,
        show (c :: es).take 2 = (c :: cs).take 2 from htake.symm]
      rfl
    · have hother : ∀ es : List Char, blankTail (c :: es) = 0 := by
        intro es
        have hcrlf : (c :: es).take 2 ≠ ['\r', '\n'] := by
          intro h
          obtain ⟨rfl, -⟩ := List.cons.inj h
          exact hc hreturn
        simp only [blankTail, hcrlf, List.head?_cons, Option.any_some, hc, reduceCtorEq, if_false]
      rw [hother, hother]

theorem tagTail_name {p h q : Char} (hp : p ≠ '=') (rest : List Char) :
    tagTail (p :: h :: q :: rest) =
      if [p, h, q].map Char.toLower = ['p', 'h', 'p'] then blankTail rest else 0 := by
  unfold tagTail
  split
  · rename_i heq
    obtain ⟨rfl, -⟩ := List.cons.inj heq
    exact absurd rfl hp
  · rename_i heq
    cases heq
    refine ite_congr rfl (fun _ => ?_) fun _ => rfl
    unfold blankTail
    split
    · rfl
    · rfl
    · rename_i c tail hcrlf
      have htake : (c :: tail).take 2 ≠ ['\r', '\n'] := by
        cases tail with
        | nil => simp
        | cons d tail => simpa using fun hc hd => hcrlf tail hc (by rw [hd])
      simp only [htake, List.head?_cons, Option.any_some, reduceCtorEq, if_false]
      rfl
  · rename_i hno
    exact (hno p h q rest rfl).elim

theorem tagTail_agree (ha : Agree (tagTail cs + 4) cs ds) : tagTail ds = tagTail cs := by
  cases cs with
  | nil => rw [ha.eq_nil]
  | cons p cs =>
    obtain ⟨es, rfl, hes⟩ := ha.exists_cons
    by_cases hp : p = '='
    · subst hp
      rfl
    cases cs with
    | nil => rw [hes.eq_nil]
    | cons h cs =>
      obtain ⟨fs, rfl, hfs⟩ := hes.exists_cons
      cases cs with
      | nil => rw [hfs.eq_nil]
      | cons q cs =>
        obtain ⟨gs, rfl, hgs⟩ := hfs.exists_cons
        rw [tagTail_name hp] at hgs
        rw [tagTail_name hp, tagTail_name hp]
        split
        · rename_i hphp
          rw [if_pos hphp] at hgs
          rw [blankTail_agree hgs]
        · rfl

end
end Piece
end PhpDoc
