import PhpDoc.Proofs.BracketPairs
import PhpDoc.Proofs.CommentBlocks
/-!
The tokens that documentation comments belong to. Between the end of a comment and its token stand
only white space, ordinary comments and whole attributes; as brackets do not cross, a token that is
skipped on the way from another one has no way to the same comment.
-/
namespace PhpDoc

namespace Tokens
variable {ts : Tokens} {i j k p : Nat} {g : Group}

structure AttributeBetween (ts : Tokens) (k p : Nat) (g : Group) : Prop where
  pairs : ts.Pairs g
  kind : ts.kind? g.opener = some .attributeOpen
  after : k < g.opener
  before : g.closer < p

def Passable (ts : Tokens) (k p j : Nat) : Prop :=
  ts.kind? j = some .whitespace ∨ ts.kind? j = some .comment ∨
    ∃ g, ts.AttributeBetween k p g ∧ g.opener ≤ j ∧ j ≤ g.closer

/-- Between two tokens stands nothing but white space, ordinary comments and complete attributes. -/
def Clear (ts : Tokens) (k p : Nat) : Prop :=
  ∀ j, k < j → j < p → ts.Passable k p j

inductive Gap (ts : Tokens) (start : Nat) : Nat → Prop
  | none : Gap ts start start
  | filler (i : Nat) : Gap ts start i →
      ts.kind? i = some .whitespace ∨ ts.kind? i = some .comment → Gap ts start (i + 1)
  | bracketed (g : Group) : Gap ts start g.opener → ts.Pairs g →
      ts.kind? g.opener = some .attributeOpen → Gap ts start (g.closer + 1)

theorem Pairs.kind?_closer (h : ts.Pairs g) (hk : ts.kind? g.opener = some .attributeOpen) :
    ts.kind? g.closer = some .closeBracket := by
  obtain ⟨k, k', hopen, hclose, hsort⟩ := h.joins.kinds
  obtain rfl : k = .attributeOpen := Option.some.inj (hopen.symm.trans hk)
  rw [hclose, ← hsort]
  rfl

theorem AttributeBetween.wider {q : Nat} (h : ts.AttributeBetween k p g) (hq : p ≤ q) :
    ts.AttributeBetween k q g :=
  ⟨h.pairs, h.kind, h.after, Nat.lt_of_lt_of_le h.before hq⟩

theorem Passable.wider {q : Nat} (h : ts.Passable k p j) (hq : p ≤ q) : ts.Passable k q j :=
  h.imp_right fun h => h.imp_right fun ⟨g, hg, hj⟩ => ⟨g, hg.wider hq, hj⟩

theorem Clear.extend {q : Nat} (h : ts.Clear k p) (hq : p ≤ q)
    (hrest : ∀ j, p ≤ j → j < q → ts.Passable k q j) : ts.Clear k q := by
  intro j hkj hjq
  rcases Nat.lt_or_ge j p with hjp | hpj
  · exact (h j hkj hjp).wider hq
  · exact hrest j hpj hjq

theorem Gap.clear (h : ts.Gap (k + 1) p) : k < p ∧ ts.Clear k p := by
  induction h with
  | none => exact ⟨Nat.lt_succ_self k, fun j hj hj' => by omega⟩
  | filler i _ hkind ih =>
    refine ⟨Nat.lt_succ_of_lt ih.1, ih.2.extend (Nat.le_succ i) fun j hij hj => ?_⟩
    obtain rfl : j = i := by omega
    exact hkind.imp_right .inl
  | bracketed g _ hg hkind ih =>
    have hlt := hg.joins.lt
    refine ⟨by omega, ih.2.extend (by omega) fun j hj hj' => .inr (.inr ⟨g, ?_, hj, by omega⟩)⟩
    exact ⟨hg, hkind, ih.1, Nat.lt_succ_self _⟩

def Outside (ts : Tokens) (k p i : Nat) : Prop :=
  ∀ g, ts.AttributeBetween k p g → i ≤ g.opener ∨ g.closer < i

theorem Outside.opener (h : ts.Outside k p (g.closer + 1)) (hts : ts.Grouped) (hg : ts.Pairs g) :
    ts.Outside k p g.opener := by
  intro g' hg'
  have houtside := h g' hg'
  have hlt := hg.joins.lt
  rcases hts.nested hg hg'.pairs with rfl | (hapart | hapart) | ⟨hopen, hclose⟩ | ⟨hopen, hclose⟩
  · exact .inl (Nat.le_refl _)
  · exact .inl (by omega)
  · exact .inr hapart
  · -- the outer one would have been entered already
    omega
  · exact .inl (Nat.le_of_lt hopen)

theorem Outside.filler (h : ts.Outside k p (i + 1))
    (hkind : ts.kind? i = some .whitespace ∨ ts.kind? i = some .comment) : ts.Outside k p i := by
  intro g hg
  rcases h g hg with hopen | hclose
  · exact .inl (by omega)
  · rcases Nat.lt_succ_iff_lt_or_eq.mp hclose with hlt | rfl
    · exact .inr hlt
    · rw [hg.pairs.kind?_closer hg.kind] at hkind
      simp at hkind

theorem Clear.gap_of_outside (hts : ts.Grouped) (h : ts.Clear k p) (hk : k < i) (hi : i ≤ p)
    (houtside : ts.Outside k p i) : ts.Gap (k + 1) i := by
  induction i using Nat.strongRecOn with
  | _ i ih =>
    rcases Nat.eq_or_lt_of_le (Nat.succ_le_of_lt hk) with rfl | hlt
    · exact .none
    · obtain ⟨j, rfl⟩ : ∃ j, i = j + 1 := ⟨i - 1, by omega⟩
      have hfiller (hkind : ts.kind? j = some .whitespace ∨ ts.kind? j = some .comment) :
          ts.Gap (k + 1) (j + 1) :=
        .filler j (ih j (Nat.lt_succ_self j) (by omega) (by omega) (houtside.filler hkind)) hkind
      rcases h j (by omega) (by omega) with hblank | hcomment | ⟨g, hg, hopen, hclose⟩
      · exact hfiller (.inl hblank)
      · exact hfiller (.inr hcomment)
      · obtain rfl : j = g.closer := by
          have := houtside g hg
          omega
        have hlt := hg.pairs.joins.lt
        exact .bracketed g (ih g.opener (by omega) hg.after (by omega)
          (houtside.opener hts hg.pairs)) hg.pairs hg.kind

/-- A stretch between two tokens can be skipped if and only if it is clear. -/
theorem Grouped.gap_iff (h : ts.Grouped) : ts.Gap (k + 1) p ↔ k < p ∧ ts.Clear k p :=
  ⟨Gap.clear, fun ⟨hlt, hclear⟩ =>
    hclear.gap_of_outside h hlt (Nat.le_refl p) fun _ hg => .inr hg.before⟩

/-- Of two tokens with a clear stretch to the same comment the first one begins an attribute, if it
is not a filler itself. -/
theorem Clear.kind?_eq {q : Nat} (hts : ts.Grouped) (hp : ts.Clear k p) (hq : ts.Clear k q)
    (hkp : k < p) (hpq : p < q) : ts.kind? p = some .whitespace ∨ ts.kind? p = some .comment ∨
      ts.kind? p = some .attributeOpen := by
  rcases hq p hkp hpq with hblank | hcomment | ⟨g, hg, hopen, hclose⟩
  · exact .inl hblank
  · exact .inr (.inl hcomment)
  rcases Nat.eq_or_lt_of_le hopen with rfl | hlt
  · exact .inr (.inr hg.kind)
  -- otherwise the attribute's opener is in the way from `p`, and no attribute ends before `p`
  exfalso
  rcases hp g.opener hg.after hlt with hblank | hcomment | ⟨g', hg', hopen', hclose'⟩
  · simp [hg.kind] at hblank
  · simp [hg.kind] at hcomment
  · have hbefore := hg'.before
    rcases hts.nested hg.pairs hg'.pairs with rfl | (hapart | hapart) | ⟨hin, hin'⟩ | ⟨hin, hin'⟩ <;>
      omega

end Tokens

namespace DocComment
open Tokens
variable {ts : Tokens} {i k o p : Nat} {c : DocComment}

theorem openerOf_filler (h : ts.kind? i = some .whitespace ∨ ts.kind? i = some .comment) :
    openerOf ts (i + 1) = openerOf ts i := by
  rw [openerOf]
  rcases h with h | h <;>
    · obtain ⟨t, ht, hk⟩ := Option.map_eq_some_iff.mp h
      simp [ht, hk]

theorem openerOf_bracketed {g : Group} (hg : ts.Pairs g)
    (hk : ts.kind? g.opener = some .attributeOpen) :
    openerOf ts (g.closer + 1) = openerOf ts g.opener := by
  obtain ⟨t, ht, hkind⟩ := Option.map_eq_some_iff.mp (hg.kind?_closer hk)
  have hgroup : t.group = some g := by simpa [group?, ht] using hg.closer
  rw [openerOf]
  simp [ht, hkind, hgroup, hk, Nat.le_of_lt hg.joins.lt]

theorem openerOf_docClose (h : ts.kind? k = some .docClose) :
    openerOf ts (k + 1) = openerBefore ts k := by
  rw [openerOf]
  obtain ⟨t, ht, hk⟩ := Option.map_eq_some_iff.mp h
  simp [ht, hk]

theorem openerOf_gap (h : ts.Gap i p) : openerOf ts p = openerOf ts i := by
  induction h with
  | none => rfl
  | filler i _ hkind ih => exact (openerOf_filler hkind).trans ih
  | bracketed g _ hg hkind ih => exact (openerOf_bracketed hg hkind).trans ih

/-- The way back from a token that ends at a comment skips what stands in between. -/
theorem exists_gap (hts : ∀ i g, ts.group? i = some g → ts.Pairs g ∧ (i = g.opener ∨ i = g.closer))
    (h : openerOf ts p = some o) :
    ∃ k, ts.kind? k = some .docClose ∧ ts.Gap (k + 1) p ∧ openerBefore ts k = some o := by
  fun_induction openerOf ts p with
  | case1 | case2 | case7 | case8 => cases h
  | case3 i t ht hk ih =>
    obtain ⟨k, hclose, hgap, hopener⟩ := ih h
    exact ⟨k, hclose, .filler i hgap (.inl (by simp [kind?, ht, hk])), hopener⟩
  | case4 i t ht hk ih =>
    obtain ⟨k, hclose, hgap, hopener⟩ := ih h
    exact ⟨k, hclose, .filler i hgap (.inr (by simp [kind?, ht, hk])), hopener⟩
  | case5 i t ht hk => exact ⟨i, by simp [kind?, ht, hk], .none, h⟩
  | case6 i t ht g hgroup hk hopens ih =>
    obtain ⟨k, hclose, hgap, hopener⟩ := ih h
    obtain ⟨hg, hi⟩ := hts i g (by simp [group?, ht, hgroup])
    obtain rfl : i = g.closer := by
      rcases hi with rfl | rfl
      · simp [kind?, ht, hk] at hopens
      · rfl
    exact ⟨k, hclose, .bracketed g hgap hg hopens.2, hopener⟩

structure EndsAt (ts : Tokens) (c : DocComment) (k : Nat) : Prop where
  read : read ts c.place = .ok c
  commentEnd : ts[c.place]?.bind (·.commentEnd) = some k

theorem place_of_read (h : read ts o = .ok c) : c.place = o := by
  unfold read at h
  split at h
  · cases h
    rfl
  · cases h

theorem before_eq_some :
    before ts p = some c ↔ ∃ o, openerOf ts p = some o ∧ read ts o = .ok c := by
  unfold before
  rw [Option.bind_eq_some_iff]
  refine exists_congr fun o => and_congr_right fun _ => ?_
  cases read ts o <;> simp [Except.toOption]

end DocComment

namespace Tokens
open DocComment
variable {ts : Tokens} {k p q : Nat} {c d : DocComment}

structure WellFormed (ts : Tokens) : Prop where
  grouped : ts.Grouped
  pairs : ∀ i g, ts.group? i = some g → ts.Pairs g ∧ (i = g.opener ∨ i = g.closer)
  enclosed : ts.Enclosed
  opened : ts.Opened

theorem WellFormed.exists_endsAt (h : ts.WellFormed) (hk : ts.kind? k = some .docClose) :
    ∃ o c, openerBefore ts k = some o ∧ read ts o = .ok c ∧ EndsAt ts c k := by
  obtain ⟨o, ho⟩ := h.enclosed.exists_stretch hk rfl
  obtain ⟨o', c, ho', hread⟩ := h.enclosed.commented h.opened k hk
  obtain rfl : o = o' := Option.some.inj (ho.openerBefore_eq.symm.trans ho')
  refine ⟨o, c, ho', hread, ?_, ?_⟩ <;> rw [place_of_read hread]
  · exact hread
  · rw [h.opened o ho.opener]
    exact ho.commentEnd_eq hk (Nat.lt_succ_self o) ho.lt

/-- A comment belongs to the tokens that a clear stretch leads to. -/
theorem WellFormed.before_iff (h : ts.WellFormed) :
    (∃ c, before ts p = some c ∧ EndsAt ts c k) ↔
      ts.kind? k = some .docClose ∧ k < p ∧ ts.Clear k p := by
  rw [← h.grouped.gap_iff]
  constructor
  · rintro ⟨c, hc, hend⟩
    obtain ⟨o, ho, hread⟩ := before_eq_some.mp hc
    obtain ⟨k', hclose, hgap, hopener⟩ := exists_gap h.pairs ho
    obtain ⟨o', c', hopener', hread', hend'⟩ := h.exists_endsAt hclose
    obtain rfl : o = o' := Option.some.inj (hopener.symm.trans hopener')
    obtain rfl : c = c' := Except.ok.inj (hread.symm.trans hread')
    obtain rfl : k = k' := Option.some.inj (hend.commentEnd.symm.trans hend'.commentEnd)
    exact ⟨hclose, hgap⟩
  · rintro ⟨hclose, hgap⟩
    obtain ⟨o, c, hopener, hread, hend⟩ := h.exists_endsAt hclose
    exact ⟨c, before_eq_some.mpr ⟨o, by rw [openerOf_gap hgap, openerOf_docClose hclose, hopener],
      hread⟩, hend⟩

theorem WellFormed.exists_end (h : ts.WellFormed) (hc : before ts p = some c) :
    ∃ k, EndsAt ts c k := by
  obtain ⟨o, ho, hread⟩ := before_eq_some.mp hc
  obtain ⟨k, hclose, -, hopener⟩ := exists_gap h.pairs ho
  obtain ⟨o', c', hopener', hread', hend⟩ := h.exists_endsAt hclose
  obtain rfl : o = o' := Option.some.inj (hopener.symm.trans hopener')
  obtain rfl : c = c' := Except.ok.inj (hread.symm.trans hread')
  exact ⟨k, hend⟩

/-- A token that a comment may belong to: one that matters, unless it begins an attribute. -/
def IsOwner (ts : Tokens) (p : Nat) : Prop :=
  ∃ k, ts.kind? p = some k ∧ k.isTrivia = false ∧ k ≠ .attributeOpen

theorem WellFormed.place_ne_of_lt (h : ts.WellFormed) (hp : ts.IsOwner p) (hpq : p < q)
    (hc : before ts p = some c) (hd : before ts q = some d) : c.place ≠ d.place := by
  intro hplace
  obtain ⟨k, hend⟩ := h.exists_end hc
  have hend' : EndsAt ts d k := by
    obtain ⟨l, hread, hl⟩ := h.exists_end hd
    refine ⟨hread, ?_⟩
    rw [← hplace]
    exact hend.commentEnd
  obtain ⟨-, hkp, hclear⟩ := h.before_iff.mp ⟨c, hc, hend⟩
  obtain ⟨-, -, hclear'⟩ := h.before_iff.mp ⟨d, hd, hend'⟩
  obtain ⟨kind, hkind, htrivia, hopen⟩ := hp
  rcases hclear.kind?_eq h.grouped hclear' hkp hpq with heq | heq | heq
  all_goals
    rw [hkind] at heq
    cases heq
  · cases htrivia
  · cases htrivia
  · exact hopen rfl

end Tokens

theorem tokenize_wellFormed (source : String) : (tokenize source).WellFormed where
  grouped := (tokenize_marked source).toGrouped
  pairs _ _ := pairs_of_group?
  enclosed := tokenize_enclosed source
  opened := tokenize_opened source

section
open DocComment

/-- No documentation comment belongs to two tokens. The comment that ends at `k` belongs to `p` if
and only if there is nothing in between but white space, ordinary comments and complete attributes,
and two tokens that matter, neither of them the beginning of an attribute, have different
comments. -/
theorem comments_owned (source : String) :
    (∀ p q c d, (tokenize source).IsOwner p → (tokenize source).IsOwner q → p ≠ q →
      before (tokenize source) p = some c → before (tokenize source) q = some d →
        c.place ≠ d.place) ∧
    ∀ p k, (∃ c, before (tokenize source) p = some c ∧ EndsAt (tokenize source) c k) ↔
      (tokenize source).kind? k = some .docClose ∧ k < p ∧ (tokenize source).Clear k p := by
  have hts := tokenize_wellFormed source
  refine ⟨fun p q c d hp hq hne hc hd => ?_, fun p k => hts.before_iff⟩
  rcases Nat.lt_or_gt_of_ne hne with hlt | hlt
  · exact hts.place_ne_of_lt hp hlt hc hd
  · exact (hts.place_ne_of_lt hq hlt hd hc).symm

def attributed : String :=
  "<?php\n/** A */ #[B(/** C */ fn() => 1)] function f() \x7b\x7d"

theorem comments_owned_attributed :
    (tokenize attributed).IsOwner 16 ∧ (tokenize attributed).IsOwner 26 ∧
    ∃ c d, before (tokenize attributed) 16 = some c ∧ before (tokenize attributed) 26 = some d ∧
      c.place ≠ d.place := by
  have hinner : (tokenize attributed).IsOwner 16 := ⟨.fnKw, by decide +kernel, rfl, nofun⟩
  have houter : (tokenize attributed).IsOwner 26 := ⟨.functionKw, by decide +kernel, rfl, nofun⟩
  have hc : before (tokenize attributed) 16 = some ⟨10, [⟨"", 10, [⟨"C", some 12⟩]⟩]⟩ := by
    decide +kernel
  have hd : before (tokenize attributed) 26 = some ⟨1, [⟨"", 1, [⟨"A", some 3⟩]⟩]⟩ := by
    decide +kernel
  exact ⟨hinner, houter, _, _, hc, hd,
    (comments_owned attributed).1 _ _ _ _ hinner houter (by decide) hc hd⟩

end
end PhpDoc
