import PhpDoc.Proofs.Relexing
/-!
Where the lexemes of a text stand. They are slices of the text one after another, whatever lies
outside of them is white space, and they reach to the end of the text or to a quote that no later
quote closes.
-/
namespace PhpDoc

namespace Lexing
open Text (quoteTail)

/-- The characters of a quoted literal after its opening quote. A backslash takes the next character
with it, and the first quote that is not taken closes the literal. -/
inductive ClosesQuote (q : Char) : List Char → Prop
  | close : ClosesQuote q [q]
  | plain {c : Char} {cs : List Char} (hq : c ≠ q) (hb : c ≠ '\\') (h : ClosesQuote q cs) :
    ClosesQuote q (c :: cs)
  | escaped {c : Char} {cs : List Char} (h : ClosesQuote q cs) : ClosesQuote q ('\\' :: c :: cs)

def OpensUnclosed (cs : List Char) : Prop :=
  ∃ q rest, cs = q :: rest ∧ (q = '\'' ∨ q = '"') ∧ ∀ ds, ds <+: rest → ¬ClosesQuote q ds

/-- The lexemes cover a text from place `n` on. Their spans are not empty, stand in order and do not
overlap, each one is the slice of the text that it spans, and the characters before, between and
after them are white space. The input ends with the text or where a quote is never closed. -/
structure Covers (text : List Char) (n : Nat) (x : Lexing) : Prop where
  nonempty : ∀ l ∈ x.lexemes, l.start < l.stop
  ordered : x.lexemes.Pairwise fun l l' => l.stop ≤ l'.start
  within : ∀ l ∈ x.lexemes, n ≤ l.start ∧ l.stop ≤ x.stop
  slice : ∀ l ∈ x.lexemes, l.text.toList = (text.take l.stop).drop l.start
  gaps : ∀ i, n ≤ i → i < x.stop → (∀ l ∈ x.lexemes, ¬(l.start ≤ i ∧ i < l.stop)) →
    ∃ c, text[i]? = some c ∧ Text.isWhiteSpace c = true
  le : n ≤ x.stop
  ending : x.stop = text.length ∨ OpensUnclosed (text.drop x.stop)

variable {text cs ds rest : List Char} {c q : Char} {n : Nat} {x : Lexing}

theorem ClosesQuote.quoteTail_append (hq : q ≠ '\\') (h : ClosesQuote q ds) :
    quoteTail q (ds ++ rest) = some ds.length := by
  induction h with
  | close => simp [quoteTail_cons hq]
  | plain hne hb _ ih => simp [quoteTail_cons hb, hne, ih]
  | escaped _ ih => simp [quoteTail_escape, ih]

theorem opensUnclosed_of_quoteTail (hc : c = '\'' ∨ c = '"') (h : quoteTail c cs = none) :
    OpensUnclosed (c :: cs) := by
  refine ⟨c, cs, rfl, hc, ?_⟩
  rintro ds ⟨rest, rfl⟩ hds
  have hb : c ≠ '\\' := by
    rcases hc with rfl | rfl <;> decide
  rw [hds.quoteTail_append hb] at h
  cases h

/-- Only a quote may begin no lexeme. -/
theorem opensUnclosed_of_lexemeTail (h : lexemeTail c cs = none) : OpensUnclosed (c :: cs) := by
  unfold lexemeTail at h
  split at h
  · cases h
  split at h
  · cases h
  split at h
  · cases h
  split at h
  · next hc => exact opensUnclosed_of_quoteTail hc (Option.map_eq_none_iff.mp h)
  split at h
  · split at h <;> cases h
  all_goals cases h

/-- White space in front is a gap. -/
theorem Covers.skip (h : Covers text (n + 1) x) (hc : text[n]? = some c)
    (hw : Text.isWhiteSpace c = true) : Covers text n x := by
  refine ⟨h.nonempty, h.ordered, fun l hl => ?_, h.slice, fun i hi hlt hout => ?_,
    Nat.le_of_succ_le h.le, h.ending⟩
  · obtain ⟨hstart, hstop⟩ := h.within l hl
    exact ⟨Nat.le_of_succ_le hstart, hstop⟩
  · rcases Nat.eq_or_lt_of_le hi with rfl | hi
    · exact ⟨c, hc, hw⟩
    · exact h.gaps i hi hlt hout

/-- A lexeme in front takes up its own characters. -/
theorem Covers.cons {l : Lexeme} (h : Covers text l.stop x) (hl : l.start < l.stop)
    (ht : l.text.toList = (text.take l.stop).drop l.start) :
    Covers text l.start ⟨l :: x.lexemes, x.stop⟩ := by
  have hstart : ∀ l' ∈ x.lexemes, l.stop ≤ l'.start := fun l' hl' => (h.within l' hl').1
  refine ⟨?_, .cons hstart h.ordered, ?_, ?_, fun i hi hlt hout => ?_,
    Nat.le_trans (Nat.le_of_lt hl) h.le, h.ending⟩
  · exact List.forall_mem_cons.mpr ⟨hl, h.nonempty⟩
  · refine List.forall_mem_cons.mpr ⟨⟨Nat.le_refl _, h.le⟩, fun l' hl' => ?_⟩
    have hstop := (h.within l' hl').2
    have := hstart l' hl'
    exact ⟨by omega, hstop⟩
  · exact List.forall_mem_cons.mpr ⟨ht, h.slice⟩
  · obtain ⟨hfirst, hrest⟩ := List.forall_mem_cons.mp hout
    exact h.gaps i (by omega) hlt hrest

theorem covers_lexFrom (n : Nat) (sp : Bool) (cs : List Char) (hn : n ≤ text.length)
    (hd : text.drop n = cs) : Covers text n (lexFrom n sp cs) := by
  fun_induction lexFrom n sp cs with
  | case1 n =>
    have hend : n = text.length := Nat.le_antisymm hn (List.drop_eq_nil_iff.mp hd)
    exact ⟨by simp, .nil, by simp, by simp, by simp only; omega, Nat.le_refl n, .inl hend⟩
  | case2 n sp c cs hw ih =>
    have hc : text[n]? = some c := by
      rw [← List.head?_drop, hd]
      rfl
    have hlt : n < text.length := (List.getElem?_eq_some_iff.mp hc).1
    refine (ih hlt ?_).skip hc hw
    rw [← List.drop_drop, hd, List.drop_one, List.tail_cons]
  | case3 n sp c cs hw ht =>
    refine ⟨by simp, .nil, by simp, by simp, by simp only; omega, Nat.le_refl n, .inr ?_⟩
    rw [hd]
    exact opensUnclosed_of_lexemeTail ht
  | case4 n sp c cs hw k i ht tail rest ih =>
    have hi : i ≤ cs.length := lexemeTail_le ht
    have hlen : tail.length = i := List.length_take_of_le hi
    have hsplit : text.drop n = [] ++ c :: (tail ++ cs.drop i) := by
      rw [hd, List.take_append_drop, List.nil_append]
    have hle : n + 1 + tail.length ≤ text.length := by
      have hlength := congrArg List.length hd
      rw [List.length_drop, List.length_cons] at hlength
      omega
    have hstop : Lexeme.stop ⟨k, n, String.ofList (c :: tail), sp⟩ = n + 1 + tail.length := by
      rw [Lexeme.stop, String.length_ofList, List.length_cons]
      exact Nat.add_right_comm n tail.length 1
    refine Covers.cons (l := ⟨k, n, String.ofList (c :: tail), sp⟩) ?_ ?_ ?_
    · rw [hstop]
      exact ih hle (drop_of_cons hsplit)
    · rw [hstop, Nat.add_assoc]
      exact Nat.lt_add_of_pos_right (by omega)
    · rw [hstop, List.drop_take, hd, String.toList_ofList]
      have hwidth : n + 1 + tail.length - n = i + 1 := by omega
      rw [hwidth, List.take_succ_cons]

end Lexing

/-- The lexemes of a text cover it. -/
theorem lex_covers (s : String) : Lexing.Covers s.toList 0 (lex s) :=
  Lexing.covers_lexFrom 0 false s.toList (Nat.zero_le _) rfl

end PhpDoc
