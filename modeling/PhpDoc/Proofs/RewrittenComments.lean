import PhpDoc.Proofs.RenumberedSteps
import PhpDoc.Proofs.Replacements
/-!
Comments after replacements in the bodies of their tags. The tags stand in the same order with the same
names, and one has another text only where a type was rewritten in it.
-/
namespace PhpDoc

namespace DocComment
variable {ts ts' : Tokens} {f : Nat → Nat} {i : Nat}

/-- No comment belongs to what stands inside of a comment. -/
theorem openerOf_of_needsOpen (h : ts.Enclosed) {k : Kind} (hk : ts.kind? i = some k)
    (hneeds : k.needsOpen = true) : openerOf ts i = none := by
  cases i with
  | zero => rw [openerOf]
  | succ i =>
    obtain ⟨k', hk'⟩ := Tokens.exists_kind? (Nat.lt_of_succ_lt (Tokens.lt_size_of_kind? hk))
    have hleaves := (h.step hk' hk).symm.trans hneeds
    obtain ⟨t, ht, rfl⟩ := Option.map_eq_some_iff.mp hk'
    rw [openerOf, ht]
    simp only
    split
    all_goals first
      | rfl
      | (rename_i hkind; rw [hkind] at hleaves; cases hleaves)
      | (rename_i hkind _; rw [hkind] at hleaves; cases hleaves)

theorem openerBefore_eq (h : ts.Renumbers ts' f) (hi : i ≤ ts.size) :
    openerBefore ts' (f i) = (openerBefore ts i).map f := by
  induction i with
  | zero => rw [h.zero]; rfl
  | succ i ih =>
    have hlt : i < ts.size := hi
    have hkind : ts.kind? i = some ts[i].kind := by simp [Tokens.kind?, hlt]
    rcases h.step i hlt with hout | ⟨hsucc, -⟩
    · have hne : ts.kind? i ≠ some .docOpen := by
        intro hopen
        have hbody := hout.body
        rw [Option.some.inj (hkind.symm.trans hopen)] at hbody
        cases hbody
      rw [hout.succ, openerBefore, if_neg hne]
      exact ih (Nat.le_of_lt hlt)
    · rw [hsucc, openerBefore, openerBefore, h.kind?_eq hsucc]
      split
      · rfl
      · exact ih (Nat.le_of_lt hlt)

/-- The comment of a token is looked up alike in both files. -/
theorem openerOf_eq (h : ts.Renumbers ts' f) (hts : ts.Enclosed) (hi : i ≤ ts.size) :
    openerOf ts' (f i) = (openerOf ts i).map f := by
  induction i using Nat.strongRecOn with
  | _ i ih =>
    cases i with
    | zero =>
      rw [h.zero, openerOf, openerOf]
      rfl
    | succ i =>
      have hlt : i < ts.size := hi
      have hbefore := ih i (Nat.lt_succ_self i) (Nat.le_of_lt hlt)
      rcases h.step i hlt with hout | ⟨hsucc, hi', ht⟩
      · have hkind : ts.kind? i = some ts[i].kind := by simp [Tokens.kind?, hlt]
        have hnone := openerOf_of_needsOpen hts hkind (by
          have hbody := hout.body
          revert hbody
          cases ts[i].kind <;> decide)
        have hbody := hout.body
        rw [hout.succ, hbefore, hnone, openerOf, Array.getElem?_eq_getElem hlt]
        simp only
        split <;> first
          | rfl
          | (rename_i hk; rw [hk] at hbody; cases hbody)
          | (rename_i hk _; rw [hk] at hbody; cases hbody)
      · rw [hsucc, openerOf, openerOf, Array.getElem?_eq_getElem hlt, Array.getElem?_eq_getElem hi']
        simp only [ht.kind, ht.group]
        split
        · rename_i hk
          simp only [hk]
          exact hbefore
        · rename_i hk
          simp only [hk]
          exact hbefore
        · rename_i hk
          simp only [hk]
          exact openerBefore_eq h (Nat.le_of_lt hlt)
        · rename_i g' hk hg'
          obtain ⟨g, hg, rfl⟩ := Option.map_eq_some_iff.mp hg'
          have hkeeps := (h.marks i hlt g (.inl hg)).1
          simp only [hk, hg, Group.renumber, h.le_iff hsucc, h.kind?_eq hkeeps]
          split
          · rename_i hopen
            exact ih g.opener (by omega) (by omega)
          · rfl
        · rename_i hbracket
          split <;> first
            | rfl
            | (rename_i hk; exact absurd hk ‹_›)
            | (rename_i hk hg; exact (hbracket _ hk (by rw [hg]; rfl)).elim)

def Same (p q : Part) : Prop :=
  q.2.kind = p.2.kind ∧ q.2.text = p.2.text

section
variable {parts parts' : List Part} {line line' : Option TagLine}

theorem isBreak_same {t t' : Token} (hk : t'.kind = t.kind) (ht : t'.text = t.text) :
    isBreak t' = isBreak t := by
  rw [isBreak, isBreak, hk, ht]

theorem text_getD (h : line'.map (·.text) = line.map (·.text)) :
    (line'.getD {}).text = (line.getD {}).text := by
  cases line <;> cases line' <;> simp_all

/-- Lines that are begun alike and filled alike have the same texts; the lines that are finished do not
depend on what follows. -/
theorem linesFrom_same (h : List.Forall₂ Same parts parts') (line line' : Option TagLine)
    (hline : line'.map (·.text) = line.map (·.text)) : ∃ done begun done' begun',
      (∀ more, linesFrom line (parts ++ more) = done ++ linesFrom begun more) ∧
      (∀ more, linesFrom line' (parts' ++ more) = done' ++ linesFrom begun' more) ∧
      done'.map (·.text) = done.map (·.text) ∧ begun'.map (·.text) = begun.map (·.text) := by
  induction h generalizing line line' with
  | nil => exact ⟨[], line, [], line', fun _ => rfl, fun _ => rfl, rfl, hline⟩
  | @cons p q parts parts' hpq _ ih =>
    obtain ⟨i, t⟩ := p
    obtain ⟨j, t'⟩ := q
    obtain ⟨hk, ht⟩ := hpq
    simp only at hk ht
    have hbreak := isBreak_same hk ht
    simp only [List.cons_append, linesFrom, hk, hbreak]
    split
    · exact ih _ _ (by simp [ht])
    · split
      · obtain ⟨done, begun, done', begun', hdone, hdone', htexts, hbegun⟩ := ih none none rfl
        refine ⟨line.getD {} :: done, begun, line'.getD {} :: done', begun', fun more => ?_,
          fun more => ?_, ?_, hbegun⟩
        · rw [hdone]
          rfl
        · rw [hdone']
          rfl
        · rw [List.map_cons, List.map_cons, htexts, text_getD hline]
      · exact ih _ _ hline

theorem texts_linesFrom (h : List.Forall₂ Same parts parts') (line : Option TagLine) :
    (linesFrom line parts').map (·.text) = (linesFrom line parts).map (·.text) := by
  obtain ⟨done, begun, done', begun', hdone, hdone', htexts, hbegun⟩ := linesFrom_same h line line rfl
  have hlines := hdone []
  have hlines' := hdone' []
  rw [List.append_nil] at hlines hlines'
  rw [hlines, hlines', List.map_append, List.map_append, htexts]
  have hrest : ∀ line : Option TagLine, (linesFrom line []).map (·.text) =
      (line.map (·.text)).toList := by
    intro line
    cases line <;> rfl
  rw [hrest, hrest, hbegun]

/-- A line that has its text is followed by lines that do not depend on it. -/
theorem linesFrom_rest (h : List.Forall₂ Same parts parts') (hone : Piece.OneText true (pieces parts))
    (hbody : ∀ p ∈ parts, p.2.kind.isBody = true) : ∃ rest rest',
      (∀ l, linesFrom (some l) parts = l :: rest) ∧ (∀ l, linesFrom (some l) parts' = l :: rest') ∧
      rest'.map (·.text) = rest.map (·.text) := by
  induction h with
  | nil => exact ⟨[], [], fun _ => rfl, fun _ => rfl, rfl⟩
  | @cons p q parts parts' hpq hall ih =>
    obtain ⟨i, t⟩ := p
    obtain ⟨j, t'⟩ := q
    obtain ⟨hk, ht⟩ := hpq
    simp only at hk ht
    obtain ⟨hp, hparts⟩ := List.forall_mem_cons.mp hbody
    have hbreak := isBreak_same hk ht
    have htext : t.kind ≠ .docText := hone.1 rfl
    simp only [linesFrom, hk, hbreak, if_neg htext]
    split
    · exact ⟨linesFrom none parts, linesFrom none parts', fun _ => rfl, fun _ => rfl,
        texts_linesFrom hall none⟩
    · rename_i hnone
      refine ih ?_ hparts
      have hfills : t.piece.fills true = true := by
        have hkind : t.kind = .docBlank ∨ t.kind = .docStar := by
          simpa [Kind.isBody, htext] using hp
        rw [Bool.not_eq_true] at hnone
        rcases hkind with hkind | hkind <;> simp [fills_piece, hnone, hkind]
      have hrest := hone.2
      rwa [hfills] at hrest

end

def filled (lines : List TagLine) : List TagLine :=
  lines.rdropWhile (·.text = "")

theorem filled_cons (l : TagLine) (ls : List TagLine) :
    filled (l :: ls) = if filled ls = [] ∧ l.text = "" then [] else l :: filled ls := by
  have hnil : ls.reverse.dropWhile (fun l => decide (l.text = "")) = [] ↔ filled ls = [] :=
    List.reverse_eq_nil_iff.symm
  rw [filled, List.rdropWhile, List.reverse_cons, List.dropWhile_append]
  by_cases hls : filled ls = []
  · rw [if_pos (List.isEmpty_iff.mpr (hnil.mpr hls)), hls]
    by_cases hl : l.text = "" <;> simp [hl]
  · rw [if_neg (mt List.isEmpty_iff.mp (mt hnil.mp hls)), if_neg fun h => hls h.1]
    simp [filled, List.rdropWhile]

theorem filled_append (front : List TagLine) {l : TagLine} (hl : l.text ≠ "") (rest : List TagLine) :
    filled (front ++ l :: rest) = front ++ l :: filled rest := by
  induction front with
  | nil => rw [List.nil_append, filled_cons, if_neg fun h => hl h.2, List.nil_append]
  | cons k front ih =>
    rw [List.cons_append, filled_cons, ih, if_neg fun h => by simp at h, List.cons_append]

theorem dropEmptyEnd_cons (l : TagLine) (ls : List TagLine) :
    dropEmptyEnd (l :: ls) = l :: filled ls := by
  induction ls generalizing l with
  | nil => rfl
  | cons m ms ih =>
    rw [dropEmptyEnd, ih m, filled_cons]
    cases filled ms with
    | nil => by_cases hm : m.text = "" <;> simp [hm]
    | cons n ns => simp

theorem dropEmptyEnd_append (front : List TagLine) {l : TagLine} (hl : l.text ≠ "")
    (rest : List TagLine) : dropEmptyEnd (front ++ l :: rest) = front ++ l :: filled rest := by
  cases front with
  | nil => exact dropEmptyEnd_cons l rest
  | cons k front =>
    rw [List.cons_append, dropEmptyEnd_cons, filled_append front hl, List.cons_append]

theorem texts_filled (lines : List TagLine) :
    (filled lines).map (·.text) = (lines.map (·.text)).rdropWhile (· = "") := by
  rw [filled, List.rdropWhile, List.rdropWhile, List.map_reverse, ← List.map_reverse (l := lines),
    List.dropWhile_map]
  rfl

theorem texts_dropEmptyEnd {lines lines' : List TagLine}
    (h : lines'.map (·.text) = lines.map (·.text)) :
    (dropEmptyEnd lines').map (·.text) = (dropEmptyEnd lines).map (·.text) := by
  cases lines with
  | nil =>
    obtain rfl := List.map_eq_nil_iff.mp h
    rfl
  | cons l lines =>
    obtain ⟨l', lines', rfl, hl, hlines⟩ := List.map_eq_cons_iff.mp h
    rw [dropEmptyEnd_cons, dropEmptyEnd_cons, List.map_cons, List.map_cons, texts_filled, texts_filled,
      hlines, hl]

theorem Follow.split {parts : List Part} {i j : Nat} (h : Follow ts i parts) (hj : j < parts.length) :
    ∃ front t rest, parts = front ++ (i + j, t) :: rest ∧ ts[i + j]? = some t ∧
      Follow ts i front ∧ front.length = j ∧ Follow ts (i + j + 1) rest := by
  induction parts generalizing i j with
  | nil => cases hj
  | cons p parts ih =>
    obtain ⟨n, t⟩ := p
    obtain ⟨⟨rfl, ht, hinner⟩, hparts⟩ := h
    cases j with
    | zero => exact ⟨[], t, parts, rfl, ht, trivial, rfl, hparts⟩
    | succ j =>
      obtain ⟨front, u, rest, rfl, hu, hfront, hlength, hrest⟩ :=
        ih hparts (Nat.lt_of_succ_lt_succ hj)
      have hsum : n + 1 + j = n + (j + 1) := by omega
      rw [hsum] at hu hrest ⊢
      exact ⟨(n, t) :: front, u, rest, rfl, hu, ⟨⟨rfl, ht, hinner⟩, hfront⟩, by simp [hlength], hrest⟩

theorem Follow.range {parts : List Part} {i : Nat} (h : Follow ts i parts) :
    ∀ p ∈ parts, ts[p.1]? = some p.2 ∧ i ≤ p.1 ∧ p.1 < i + parts.length := by
  induction parts generalizing i with
  | nil => simp
  | cons p parts ih =>
    obtain ⟨n, t⟩ := p
    obtain ⟨⟨rfl, ht, -⟩, hparts⟩ := h
    rw [List.length_cons]
    refine List.forall_mem_cons.mpr ⟨⟨ht, Nat.le_refl _, by simp only; omega⟩, fun p hp => ?_⟩
    obtain ⟨hp, hle, hlt⟩ := ih hparts p hp
    exact ⟨hp, by omega, by omega⟩

end DocComment

theorem Piece.OneText.after_text {full : Bool} {ps qs : List Piece} {p : Piece}
    (h : OneText full (ps ++ p :: qs)) (hp : p.kind = .docText) : OneText true qs := by
  induction ps generalizing full with
  | nil =>
    have hrest := h.2
    rwa [show p.fills full = true by simp [fills, hp]] at hrest
  | cons q ps ih => exact ih h.2

theorem Piece.OneText.after_text_pieces {full : Bool} {front rest : List DocComment.Part} {i : Nat}
    {t : Token} (h : OneText full (DocComment.pieces (front ++ (i, t) :: rest)))
    (ht : t.kind = .docText) : OneText true (DocComment.pieces rest) := by
  rw [DocComment.pieces, List.map_append, List.map_cons] at h
  exact h.after_text ht

namespace Plan
open DocComment Tokens.Renumbers
variable {ts ts' : Tokens} {plan : Plan ts} {f : Nat → Nat} {i place stop : Nat} {t : Token}
  {parts : List Part}

/-- What is in the body of a tag and not within its replacement is spared. -/
theorem spares_of_body (htag : ts.kind? place = some .docTag) (hbody : ts.IsBody (place + 1) stop)
    (hi : place < i) (hi' : i < stop)
    (h : ∀ r, plan.at? place = some r → ¬(r.first ≤ i ∧ i ≤ r.last)) : plan.Spares i := by
  have hname : ∀ {k}, ts.kind? place = some k → k.isBody = false := by
    intro k hk
    rw [Option.some.inj (hk.symm.trans htag)]
    rfl
  intro place' r' hr' hin
  have hs := plan.suits place' r' hr'
  have hlt := hs.lt
  rcases Nat.lt_trichotomy place' place with hbefore | rfl | hafter
  · obtain ⟨k, hk, hkbody⟩ := hs.body place hbefore (by omega)
    rw [hname hk] at hkbody
    cases hkbody
  · exact h r' hr' hin
  · obtain ⟨k, hk, hkbody⟩ := hbody place' hafter (by omega)
    rw [Option.some.inj (hk.symm.trans hs.tag)] at hkbody
    cases hkbody

theorem spares_of_not_isBody {k : Kind} (hk : ts.kind? i = some k) (hbody : k.isBody = false) :
    plan.Spares i := by
  intro place r hr hin
  have hs := plan.suits place r hr
  have hlt := hs.lt
  obtain ⟨k', hk', hbody'⟩ := hs.body i (by omega) (by omega)
  rw [Option.some.inj (hk'.symm.trans hk), hbody] at hbody'
  cases hbody'

namespace Result

/-- A token that is spared is found with its text. -/
theorem counterpart_of_spares (h : plan.Result ts' f) (ht : ts[i]? = some t) (hi : plan.Spares i) :
    KeepsPlace f i ∧ ∃ t', ts'[f i]? = some t' ∧ counterpart ts' f (i, t) = some (f i, t') ∧
      Same (i, t) (f i, t') := by
  obtain ⟨hsucc, t', ht', htext⟩ := h.kept i t ht hi
  have hkind := h.renumbers.kind?_eq hsucc
  rw [Tokens.kind?, Tokens.kind?, ht, ht'] at hkind
  refine ⟨hsucc, t', ht', ?_, Option.some.inj hkind, htext⟩
  rw [counterpart, if_neg (by simp only; omega), ht']
  rfl

theorem same_of_spares (h : plan.Result ts' f) (hparts : ∀ p ∈ parts, ts[p.1]? = some p.2)
    (hspares : ∀ p ∈ parts, plan.Spares p.1) :
    List.Forall₂ Same parts (parts.filterMap (counterpart ts' f)) := by
  induction parts with
  | nil => exact .nil
  | cons p parts ih =>
    obtain ⟨hp, hparts⟩ := List.forall_mem_cons.mp hparts
    obtain ⟨hspare, hspares⟩ := List.forall_mem_cons.mp hspares
    obtain ⟨-, t', -, hcounter, hsame⟩ := h.counterpart_of_spares hp hspare
    rw [List.filterMap_cons_some hcounter]
    exact .cons hsame (ih hparts hspares)

/-- Names of tags are found, and nothing else becomes one. -/
theorem counterpart_cases (h : plan.Result ts' f) (ht : ts[i]? = some t) :
    (counterpart ts' f (i, t) = none ∧ t.kind ≠ .docTag) ∨
      ∃ t', counterpart ts' f (i, t) = some (f i, t') ∧ t'.kind = t.kind := by
  obtain ⟨hi, rfl⟩ := Array.getElem?_eq_some_iff.mp ht
  rcases h.renumbers.step i hi with hout | ⟨hsucc, hi', hbec⟩
  · refine .inl ⟨if_pos hout.succ, fun hk => ?_⟩
    have hbody := hout.body
    rw [hk] at hbody
    cases hbody
  · refine .inr ⟨ts'[f i], ?_, hbec.kind⟩
    rw [counterpart, if_neg (by simp only; omega), Array.getElem?_eq_getElem hi']
    rfl

theorem upToTag_filterMap (h : plan.Result ts' f) (hparts : ∀ p ∈ parts, ts[p.1]? = some p.2) :
    upToTag (parts.filterMap (counterpart ts' f)) =
      (upToTag parts).filterMap (counterpart ts' f) := by
  induction parts with
  | nil => rfl
  | cons p parts ih =>
    obtain ⟨i, t⟩ := p
    obtain ⟨hp, hparts⟩ := List.forall_mem_cons.mp hparts
    rcases h.counterpart_cases hp with ⟨hnone, hk⟩ | ⟨t', hsome, hk⟩
    · rw [List.filterMap_cons_none hnone, upToTag_cons, if_neg hk, List.filterMap_cons_none hnone,
        ih hparts]
    · rw [List.filterMap_cons_some hsome, upToTag_cons, upToTag_cons, hk]
      split
      · rfl
      · rw [List.filterMap_cons_some hsome, ih hparts]

end Result

/-- A tag after the replacements of a plan: its text is what it was if nothing is replaced in it, and
has the recommended spelling in the place of the type if that is what a rewrite puts there. -/
structure TagBecomes (plan : Plan ts) (f : Nat → Nat) (t t' : Tag) : Prop where
  name : t'.name = t.name
  place : t'.place = f t.place
  keeps : KeepsPlace f t.place
  spared : plan.at? t.place = none → t'.text = t.text
  written : ∀ w : Rewrite, w.tag = t → w.IsOf ts → plan.at? t.place = w.replacement? →
    t'.text.toList = t.text.toList.take w.span.1 ++ w.spelled.toList ++ t.text.toList.drop w.span.2

section
variable {r : Replacement}

/-- The part of the body of a tag that is not within its replacement stays as it is. -/
theorem Result.same_of_apart (h : plan.Result ts' f) (hr : plan.at? place = some r)
    (hbody : ts.IsBody (place + 1) stop) (hfollow : Follow ts i parts) (hi : place < i)
    (hstop : i + parts.length ≤ stop) (hapart : i + parts.length ≤ r.first ∨ r.last < i) :
    List.Forall₂ Same parts (parts.filterMap (counterpart ts' f)) := by
  refine h.same_of_spares (fun p hp => (hfollow.range p hp).1) fun p hp => ?_
  obtain ⟨-, hle, hlt⟩ := hfollow.range p hp
  refine spares_of_body (plan.suits place r hr).tag hbody (by omega) (by omega) fun r' hr' hin => ?_
  obtain rfl : r = r' := Option.some.inj (hr.symm.trans hr')
  omega

/-- The lines of a body from the first text on that is replaced. -/
theorem Result.exists_lines_after (h : plan.Result ts' f) (hr : plan.at? place = some r)
    (hbody : ts.IsBody (place + 1) stop) (hfollow : Follow ts (r.first + 1) parts)
    (hstop : r.first + 1 + parts.length = stop) (hlast : r.last < stop)
    (hone : Piece.OneText true (DocComment.pieces parts)) (s : String) : ∃ upto rest rest' v more,
      linesFrom (some ⟨s, some r.first⟩) parts = upto ++ ⟨v, some r.last⟩ :: rest ∧
      linesFrom (some ⟨s, some r.first⟩) parts = ⟨s, some r.first⟩ :: more ∧
      (∀ l, linesFrom (some l) (parts.filterMap (counterpart ts' f)) = l :: rest') ∧
      rest'.map (·.text) = rest.map (·.text) := by
  have hs := plan.suits place r hr
  have hlt := hs.lt
  have hkinds : ∀ p ∈ parts, p.2.kind.isBody = true := by
    intro p hp
    obtain ⟨hget, hle, hlt⟩ := hfollow.range p hp
    obtain ⟨k, hk, hkbody⟩ := hbody p.1 (by omega) (by omega)
    obtain rfl : p.2.kind = k := by simpa [Tokens.kind?, hget] using hk
    exact hkbody
  obtain ⟨more, -, hmore, -⟩ := linesFrom_rest
    (List.forall₂_same.mpr fun _ _ => ⟨rfl, rfl⟩ : List.Forall₂ Same parts parts) hone hkinds
  rcases Nat.eq_or_lt_of_le hs.le with heq | hbelow
  · obtain ⟨rest, rest', hrest, hrest', htexts⟩ := linesFrom_rest
      (h.same_of_apart hr hbody hfollow (by omega) (by omega) (.inr (by omega))) hone hkinds
    exact ⟨[], rest, rest', s, more, by rw [hrest, heq]; rfl, hmore _, hrest', htexts⟩
  · obtain ⟨front, v, after, rfl, hv, hfront, hlength, hafter⟩ :=
      hfollow.split (j := r.last - (r.first + 1)) (by omega)
    have hend : r.first + 1 + (r.last - (r.first + 1)) = r.last := by omega
    rw [hend] at hv hafter hkinds hone hmore ⊢
    obtain ⟨-, hbehind⟩ := List.forall_mem_append.mp hkinds
    have hvk : v.kind = .docText := by simpa [Tokens.kind?, hv] using hs.last
    -- the texts between the first one and the last one are left out, and the last one is
    have hout : ∀ p ∈ front, counterpart ts' f p = none := by
      intro p hp
      obtain ⟨-, hle, hlt⟩ := hfront.range p hp
      exact if_pos (h.leftOut place r hr p.1 (by omega) (by omega))
    have hlastout : counterpart ts' f (r.last, v) = none :=
      if_pos (h.leftOut place r hr r.last hbelow (Nat.le_refl _))
    rw [List.length_append, List.length_cons] at hstop
    obtain ⟨rest, rest', hrest, hrest', htexts⟩ := linesFrom_rest
      (h.same_of_apart hr hbody hafter (by omega) (by omega) (.inr (by omega)))
      (hone.after_text_pieces hvk) (List.forall_mem_cons.mp hbehind).2
    obtain ⟨done, begun, -, -, hdone, -⟩ := linesFrom_same
      (List.forall₂_same.mpr fun _ _ => ⟨rfl, rfl⟩ : List.Forall₂ Same front front)
      (some ⟨s, some r.first⟩) _ rfl
    refine ⟨done, rest, rest', v.text, more, ?_, hmore _, ?_, htexts⟩
    · rw [hdone, linesFrom, if_pos hvk, hrest]
    · rw [List.filterMap_append, List.filterMap_eq_nil_iff.mpr hout, List.nil_append,
        List.filterMap_cons_none hlastout]
      exact hrest'

/-- The lines of a body in which something is replaced. -/
theorem Result.exists_lines (h : plan.Result ts' f) (hr : plan.at? place = some r)
    (hbody : ts.IsBody (place + 1) stop) (hfollow : Follow ts (place + 1) parts)
    (hstop : place + 1 + parts.length = stop) (hlast : r.last < stop)
    (hone : Piece.OneText false (DocComment.pieces parts)) :
    ∃ done done' upto rest rest' v l more place',
      linesFrom (some {}) parts = upto ++ ⟨v, some r.last⟩ :: rest ∧
      linesFrom (some {}) parts = done ++ l :: more ∧ l.token = some r.first ∧
      linesFrom (some {}) (parts.filterMap (counterpart ts' f)) = done' ++ ⟨r.text, place'⟩ :: rest' ∧
      done'.map (·.text) = done.map (·.text) ∧ rest'.map (·.text) = rest.map (·.text) := by
  have hs := plan.suits place r hr
  have hlt := hs.lt
  have hle := hs.le
  obtain ⟨front, u, after, rfl, hu, hfront, hlength, hafter⟩ :=
    hfollow.split (j := r.first - (place + 1)) (by omega)
  have hfirst : place + 1 + (r.first - (place + 1)) = r.first := by omega
  rw [hfirst] at hu hone hafter ⊢
  rw [List.length_append, List.length_cons] at hstop
  obtain ⟨u', hu', huk, -⟩ := hs.first
  obtain rfl : u = u' := Option.some.inj (hu.symm.trans hu')
  obtain ⟨upto, rest, rest', v, more, hlines, hmore, hlines', htexts⟩ :=
    h.exists_lines_after hr hbody hafter (by omega) hlast (hone.after_text_pieces huk) u.text
  obtain ⟨done, begun, done', begun', hdone, hdone', hbefore, -⟩ := linesFrom_same
    (h.same_of_apart hr hbody hfront (by omega) (by omega) (.inl (by omega)))
    (some {}) (some {}) rfl
  -- the first text is found with what is written
  obtain ⟨hsucc, t', ht', htext⟩ := h.written place r hr
  have hkind := h.renumbers.kind?_eq hsucc
  rw [Tokens.kind?, Tokens.kind?, hu, ht'] at hkind
  have ht'k : t'.kind = .docText := (Option.some.inj hkind).trans huk
  have hcounter : counterpart ts' f (r.first, u) = some (f r.first, t') := by
    rw [counterpart, if_neg (by simp only; omega), ht']
    rfl
  refine ⟨done, done', done ++ upto, rest, rest', v, ⟨u.text, some r.first⟩, more, some (f r.first),
    ?_, ?_, rfl, ?_, hbefore, htexts⟩
  · rw [hdone, linesFrom, if_pos huk, hlines, List.append_assoc]
  · rw [hdone, linesFrom, if_pos huk, hmore]
  · rw [List.filterMap_append, List.filterMap_cons_some hcounter, hdone', linesFrom, if_pos ht'k,
      hlines', htext]

end

section
variable {source : String} {plan : Plan (tokenize source)}

theorem toList_text_of_append {name : String} {place : Nat} (front : List TagLine) (l : TagLine)
    (rest : List TagLine) : (Tag.text ⟨name, place, front ++ l :: rest⟩).toList =
      Text.above (front.map (·.text.toList)) ++ l.text.toList ++
        Text.below (rest.map (·.text.toList)) := by
  rw [Tag.toList_text, List.map_append, List.map_cons, Text.intercalate_eq]

theorem toList_texts {lines lines' : List TagLine} (h : lines'.map (·.text) = lines.map (·.text)) :
    lines'.map (·.text.toList) = lines.map (·.text.toList) := by
  simpa [Function.comp_def] using congrArg (List.map String.toList) h

/-- The lines that begin a tag begin what is left of it. -/
theorem take_eq_of_isPrefix {lines front back : List TagLine} (h : lines <+: front ++ back)
    (hle : front.length ≤ lines.length) : lines.take front.length = front := by
  obtain ⟨dropped, hdrop⟩ := h
  rw [← List.take_append_of_le_length hle, hdrop, List.take_left]

/-- What a rewrite puts into a tag is its text with the recommended spelling in the place of the
type. -/
theorem Result.text_written (h : plan.Result ts' f) {w : Rewrite} (hw : w.IsOf (tokenize source))
    {r : Replacement} {a b : Nat} {left right : List Char} (hsplits : w.Splits r a b left right)
    (hr : plan.at? place = some r) {name : String}
    (hlines : w.tag.lines = dropEmptyEnd (linesFrom (some {}) parts))
    (hspans : Tag.Spans (tokenize source) (place + 1) stop ((tokenize source).breaksBefore (place + 1))
      ⟨name, place, linesFrom (some {}) parts⟩)
    (hfollow : Follow (tokenize source) (place + 1) parts)
    (hstop : place + 1 + parts.length = stop)
    (hone : Piece.OneText false (DocComment.pieces parts)) (place' : Nat) :
    (Tag.text ⟨name, place', dropEmptyEnd
      (linesFrom (some {}) (parts.filterMap (counterpart ts' f)))⟩).toList =
      w.tag.text.toList.take w.span.1 ++ w.spelled.toList ++ w.tag.text.toList.drop w.span.2 := by
  have hprefix := isPrefix_dropEmptyEnd (linesFrom (some {}) parts)
  rw [← hlines] at hprefix
  obtain ⟨l, hl, hltoken, -⟩ := hsplits.first
  obtain ⟨m, hm, hmtoken, -⟩ := hsplits.last
  have hwhole : ∀ {n : Nat} {x : TagLine}, w.tag.lines[n]? = some x →
      (linesFrom (some {}) parts)[n]? = some x := by
    intro n x hx
    obtain ⟨dropped, hdrop⟩ := hprefix
    rw [← hdrop, List.getElem?_append_left (List.getElem?_eq_some_iff.mp hx).1]
    exact hx
  have hlast : r.last < stop := ((hspans.lines b m (hwhole hm)).token _ hmtoken).2.1
  obtain ⟨done, done', upto, rest, rest', v, l', more, first, hupto, hdone, hl', hlines', hbefore,
    hafter⟩ := h.exists_lines hr hspans.body hfollow hstop hlast hone
  obtain rfl : a = done.length :=
    hspans.index_eq (hwhole hl) hltoken (by simp only [hdone]; simp) hl'
  have hat : (linesFrom (some {}) parts)[upto.length]? = some ⟨v, some r.last⟩ := by
    rw [hupto]
    simp
  obtain rfl : b = upto.length := hspans.index_eq (hwhole hm) hmtoken hat rfl
  have hv : v ≠ "" := by
    intro hempty
    have htells := tells_of_spans (tokenize_spoken source) hspans _ (List.mem_of_getElem? hat) hempty
    cases htells
  have hfits := hw.fits hsplits hl
  have hrtext : r.text ≠ "" := fun hempty => hfits.ne_nil (by rw [hempty]; rfl)
  -- the lines above and below, in the tag before
  have habove : w.tag.lines.take done.length = done :=
    take_eq_of_isPrefix (hdone ▸ hprefix) (Nat.le_of_lt (List.getElem?_eq_some_iff.mp hl).1)
  have hbelow : w.tag.lines.drop (upto.length + 1) = filled rest := by
    rw [hlines, hupto, dropEmptyEnd_append upto hv, ← List.drop_drop, List.drop_left]
    rfl
  have htexts : (filled rest').map (·.text) = (filled rest).map (·.text) := by
    rw [texts_filled, texts_filled, hafter]
  rw [hlines', dropEmptyEnd_append done' hrtext, toList_text_of_append, hsplits.text, hsplits.above,
    hsplits.below, habove, hbelow, toList_texts hbefore, toList_texts htexts]
  simp

/-- A tag becomes the one that is read in its place. -/
theorem Result.tagOf_becomes (h : plan.Result ts' f) {name : String} (hname : name ≠ "")
    (htag : (tokenize source).kind? place = some .docTag)
    (hfollow : Follow (tokenize source) (place + 1) parts)
    (hone : Piece.OneText false (DocComment.pieces parts)) : plan.TagBecomes f (tagOf name place parts)
      (tagOf name (f place) (parts.filterMap (counterpart ts' f))) := by
  have hspans := spans_upToTag name place hfollow
  have hup := hfollow.upToTag
  have hone' : Piece.OneText false (DocComment.pieces (upToTag parts)) := by
    have hsplit : DocComment.pieces parts = DocComment.pieces (upToTag parts) ++
        DocComment.pieces (parts.dropWhile fun p => p.2.kind != .docTag) := by
      rw [DocComment.pieces, DocComment.pieces, DocComment.pieces, ← List.map_append, upToTag,
        List.takeWhile_append_dropWhile]
    exact (hsplit ▸ hone).left
  have hlines : ∀ (place : Nat) (parts : List Part), tagOf name place parts =
      ⟨name, place, dropEmptyEnd (linesFrom (some {}) (upToTag parts))⟩ := by
    intro place parts
    rw [tagOf, if_neg hname]
  have hparts : ∀ p ∈ parts, (tokenize source)[p.1]? = some p.2 := fun p hp => (hfollow.of_mem p hp).1
  refine ⟨rfl, rfl, h.renumbers.succ_of_kind? htag rfl, fun hnone => ?_, fun w hw hof hat => ?_⟩
  · have hsame := h.same_of_spares (fun p hp => (hup.range p hp).1) fun p hp =>
      spares_of_body htag hspans.body (hup.range p hp).2.1 (hup.range p hp).2.2 fun r hr => by
        rw [show plan.at? place = none from hnone] at hr
        cases hr
    have htexts := texts_dropEmptyEnd (texts_linesFrom hsame (some {}))
    rw [hlines, hlines, Tag.text, Tag.text, h.upToTag_filterMap hparts, htexts]
  · obtain ⟨r, a, b, left, right, hr, hsplits⟩ := hof.exists_replacement
    have hplanned : plan.at? place = some r := hat.trans hr
    rw [← hw, hlines, h.upToTag_filterMap hparts]
    exact h.text_written hof hsplits hplanned (by rw [hw, hlines]) hspans hup rfl hone' _

/-- Tags become those that are read from the file after the replacements. -/
theorem Result.tagsFrom_becomes (h : plan.Result ts' f) {full : Bool}
    (hfollow : Follow (tokenize source) i parts) (hone : Piece.OneText full (DocComment.pieces parts)) :
    List.Forall₂ (plan.TagBecomes f) (tagsFrom parts)
      (tagsFrom (parts.filterMap (counterpart ts' f))) := by
  induction parts generalizing i full with
  | nil => exact .nil
  | cons p parts ih =>
    obtain ⟨j, t⟩ := p
    obtain ⟨⟨rfl, ht, hinner⟩, hparts⟩ := hfollow
    have hrest := ih hparts hone.2
    rw [tagsFrom]
    split
    · rename_i hk
      have hkind : (tokenize source).kind? j = some .docTag := by simp [Tokens.kind?, ht, hk]
      obtain ⟨-, t', -, hcounter, hk', htext⟩ :=
        h.counterpart_of_spares ht (spares_of_not_isBody hkind rfl)
      have hname : t.text ≠ "" := by
        have hnonempty := (tokenize_spoken source j t ht).nonempty (.inr hk)
        simpa [Token.piece, String.toList_eq_nil_iff] using hnonempty
      have hone' : Piece.OneText false (DocComment.pieces parts) := by
        have hfills := (Piece.fills_eq_false full (p := t.piece) (.inr (.inr (.inl hk)))).1
        exact hfills ▸ hone.2
      rw [List.filterMap_cons_some hcounter, tagsFrom, if_pos (hk'.trans hk)]
      simp only at htext
      rw [htext]
      exact .cons (h.tagOf_becomes hname hkind hparts hone') hrest
    · rename_i hk
      rcases h.counterpart_cases ht with ⟨hnone, -⟩ | ⟨t', hsome, hk'⟩
      · rwa [List.filterMap_cons_none hnone]
      · rwa [List.filterMap_cons_some hsome, tagsFrom, if_neg (hk' ▸ hk)]

def CommentBecomes (plan : Plan ts) (f : Nat → Nat) (c c' : DocComment) : Prop :=
  List.Forall₂ (plan.TagBecomes f) c.allNamed c'.allNamed

theorem kind?_of_openerBefore {o : Nat} (h : openerBefore ts i = some o) :
    ts.kind? o = some .docOpen := by
  induction i with
  | zero => cases h
  | succ i ih =>
    rw [openerBefore] at h
    split at h
    · rename_i hk
      cases h
      exact hk
    · exact ih h

variable {source' : String}

theorem Result.commentEnd_eq (h : plan.Result ts' f) {o : Nat}
    (ho : (tokenize source).kind? o = some .docOpen) : KeepsPlace f o ∧
      ts'[f o]?.bind (·.commentEnd) = ((tokenize source)[o]?.bind (·.commentEnd)).map f := by
  have hsucc := h.renumbers.succ_of_kind? ho rfl
  refine ⟨hsucc, ?_⟩
  obtain ⟨hnone, hnone'⟩ | ⟨t, t', ht, ht', hbec⟩ := h.renumbers.getElem?_eq hsucc
  · rw [hnone, hnone']
    rfl
  · rw [ht, ht', Option.bind_some, Option.bind_some, hbec.commentEnd]

/-- A comment is read as the one that it becomes. -/
theorem Result.read_becomes (h : plan.Result (tokenize source') f) {o : Nat}
    (ho : (tokenize source).kind? o = some .docOpen) : Option.Rel (plan.CommentBecomes f)
      (read (tokenize source) o).toOption (read (tokenize source') (f o)).toOption := by
  obtain ⟨hsucc, hend⟩ := h.commentEnd_eq ho
  rw [DocComment.read, DocComment.read, hend]
  cases hstop : (tokenize source)[o]?.bind (·.commentEnd) with
  | none => exact .none
  | some stop =>
    rw [hstop] at hend
    have hfollow := follow_of_commentEnd hstop
    have hfollow' := follow_of_commentEnd hend
    rw [← hsucc, h.renumbers.between_eq] at hfollow'
    refine .some ?_
    rw [CommentBecomes, ← hsucc, h.renumbers.between_eq, allNamed_ofParts (tokenize_spoken _) hfollow,
      allNamed_ofParts (tokenize_spoken _) hfollow']
    exact h.tagsFrom_becomes hfollow (oneText_of_commentEnd hstop)

/-- The comment of a token becomes that of the token at its new number. -/
theorem Result.before_becomes (h : plan.Result (tokenize source') f)
    (hi : i ≤ (tokenize source).size) : Option.Rel (plan.CommentBecomes f)
      (before (tokenize source) i) (before (tokenize source') (f i)) := by
  rw [before, before, openerOf_eq h.renumbers (tokenize_enclosed source) hi]
  cases ho : openerOf (tokenize source) i with
  | none => exact .none
  | some o =>
    obtain ⟨j, -, hj⟩ := exists_of_openerOf ho
    exact h.read_becomes (kind?_of_openerBefore hj)

def Result.renumbering (h : plan.Result (tokenize source') f) :
    Outline.Renumbering (tokenize source) (tokenize source') where
  number := f
  related := plan.CommentBecomes f
  renumbers := h.renumbers
  marked := tokenize_marked source
  enclosed := tokenize_enclosed source
  before _ hi := h.before_becomes hi

end

end Plan
end PhpDoc
