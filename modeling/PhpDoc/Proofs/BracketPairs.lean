import PhpDoc.Proofs.CommentBlocks
/-!
Bracket pairs. A pair is recorded on both of its brackets, two pairs are nested or disjoint, and
brackets with a balanced word between them are a pair; what a keyword declares extends over pairs
that come after it one after the other.
-/
namespace PhpDoc

def Kind.isBracket (k : Kind) : Bool :=
  k.closer?.isSome || k.isCloser

namespace Group

/-- Words in which every bracket has a partner of its sort; what is no bracket does not count. -/
inductive Balanced : List Kind → Prop
  | nil : Balanced []
  | other {k : Kind} {ks : List Kind} (hk : k.isBracket = false) (h : Balanced ks) :
    Balanced (k :: ks)
  | pair {k k' : Kind} {inner after : List Kind} (hk : k.closer? = some k')
    (hinner : Balanced inner) (hafter : Balanced after) : Balanced (k :: (inner ++ k' :: after))

/-- The group of two partners in a word: they are of one sort, and the word between them is
balanced. -/
inductive Partners (ks : List Kind) : Group → Prop
  | intro {before inner after : List Kind} {k k' : Kind}
    (hks : ks = before ++ k :: (inner ++ k' :: after)) (hk : k.closer? = some k')
    (hinner : Balanced inner) : Partners ks ⟨before.length, before.length + inner.length + 1⟩

section
variable {ks ls : List Kind} {g : Group} {i : Nat} {k : Kind}

theorem Balanced.append_others (hls : ∀ k ∈ ls, ¬k.isBracket = true) (h : Balanced ks) :
    Balanced (ls ++ ks) := by
  induction ls with
  | nil => exact h
  | cons k ls ih =>
    obtain ⟨hk, hls⟩ := List.forall_mem_cons.mp hls
    exact .other (by simpa using hk) (ih hls)

/-- A word is balanced if its brackets are. -/
theorem balanced_of_filter (h : Balanced (ks.filter Kind.isBracket)) : Balanced ks := by
  generalize hword : ks.filter Kind.isBracket = word at h
  induction h generalizing ks with
  | nil =>
    have := Balanced.append_others (List.filter_eq_nil_iff.mp hword) .nil
    rwa [List.append_nil] at this
  | other hk =>
    obtain ⟨-, -, -, -, hbracket, -⟩ := List.filter_eq_cons_iff.mp hword
    rw [hk] at hbracket
    cases hbracket
  | pair hk hinner hafter ihinner ihafter =>
    obtain ⟨others, rest, rfl, hothers, -, hrest⟩ := List.filter_eq_cons_iff.mp hword
    obtain ⟨inner, last, rfl, hin, hlast⟩ := List.filter_eq_append_iff.mp hrest
    obtain ⟨gap, after, rfl, hgap, -, hout⟩ := List.filter_eq_cons_iff.mp hlast
    have hskip : (inner ++ gap).filter Kind.isBracket = inner.filter Kind.isBracket := by
      rw [List.filter_append, List.filter_eq_nil_iff.mpr hgap, List.append_nil]
    rw [← List.append_assoc inner]
    exact (Balanced.pair hk (ihinner (hskip.trans hin)) (ihafter hout)).append_others hothers

theorem Partners.append_left (ls : List Kind) (h : Partners ks g) :
    Partners (ls ++ ks) ⟨ls.length + g.opener, ls.length + g.closer⟩ := by
  cases h with
  | @intro before inner after k k' hks hk hinner =>
    have hsplit : ls ++ ks = (ls ++ before) ++ k :: (inner ++ k' :: after) := by
      rw [hks, List.append_assoc]
    simpa [Nat.add_assoc] using Partners.intro hsplit hk hinner

theorem Partners.append_right (rs : List Kind) (h : Partners ks g) : Partners (ks ++ rs) g := by
  cases h with
  | @intro before inner after k k' hks hk hinner =>
    have hsplit : ks ++ rs = before ++ k :: (inner ++ k' :: (after ++ rs)) := by
      simp [hks]
    exact .intro hsplit hk hinner

/-- In a balanced word every bracket has a partner. -/
theorem Balanced.exists_partners (h : Balanced ks) (hi : ks[i]? = some k)
    (hk : k.isBracket = true) : ∃ g, Partners ks g ∧ (i = g.opener ∨ i = g.closer) := by
  induction h generalizing i with
  | nil => cases hi
  | @other k₀ ks hother _ ih =>
    cases i with
    | zero =>
      obtain rfl := Option.some.inj hi
      rw [hother] at hk
      cases hk
    | succ i =>
      obtain ⟨g, hg, hgi⟩ := ih hi
      refine ⟨_, hg.append_left [k₀], ?_⟩
      simp only [List.length_singleton]
      omega
  | @pair k₀ k' inner after hcloser hinner _ ihinner ihafter =>
    have hsplit : k₀ :: (inner ++ k' :: after) = [] ++ k₀ :: (inner ++ k' :: after) := rfl
    have hpair := Partners.intro hsplit hcloser hinner
    cases i with
    | zero => exact ⟨_, hpair, .inl rfl⟩
    | succ i =>
      rw [List.getElem?_cons_succ] at hi
      rcases Nat.lt_trichotomy i inner.length with hlt | rfl | hgt
      · rw [List.getElem?_append_left hlt] at hi
        obtain ⟨g, hg, hgi⟩ := ihinner hi
        refine ⟨_, (hg.append_right (k' :: after)).append_left [k₀], ?_⟩
        simp only [List.length_singleton]
        omega
      · exact ⟨_, hpair, .inr (by simp)⟩
      · obtain ⟨j, rfl⟩ := Nat.exists_eq_add_of_lt hgt
        rw [List.getElem?_append_right (by omega), show inner.length + j + 1 - inner.length = j + 1
          by omega, List.getElem?_cons_succ] at hi
        obtain ⟨g, hg, hgi⟩ := ihafter hi
        have := hg.append_left (k₀ :: (inner ++ [k']))
        refine ⟨_, by simpa using this, ?_⟩
        simp only
        omega

end

section
variable {ks : List Kind} {g : Group} {k k' : Kind}

theorem matchFrom_other (hk : k.isBracket = false) (i : Nat) (stack : List (Nat × Kind))
    (ks : List Kind) : matchFrom i stack (k :: ks) = matchFrom (i + 1) stack ks := by
  obtain ⟨hopen, hclose⟩ := Bool.or_eq_false_iff.mp hk
  rw [matchFrom, hopen, hclose]
  rfl

theorem matchFrom_opener (hk : k.closer? = some k') (i : Nat) (stack : List (Nat × Kind))
    (ks : List Kind) : matchFrom i stack (k :: ks) = matchFrom (i + 1) ((i, k) :: stack) ks := by
  rw [matchFrom, hk]
  rfl

theorem matchFrom_closer (hk : k.closer? = some k') (o i : Nat) (stack : List (Nat × Kind))
    (ks : List Kind) :
    matchFrom i ((o, k) :: stack) (k' :: ks) = ⟨o, i⟩ :: matchFrom (i + 1) stack ks := by
  have hclose : k'.closer? = none ∧ k'.isCloser = true := by
    cases k <;> cases hk <;> decide
  rw [matchFrom, hclose.1, hclose.2, List.dropWhile_cons_of_neg (by simpa using hk)]
  rfl

/-- A balanced word leaves the brackets before it open. -/
theorem exists_matchFrom_balanced (h : Balanced ks) (i : Nat) (stack : List (Nat × Kind))
    (rest : List Kind) :
    ∃ gs, matchFrom i stack (ks ++ rest) = gs ++ matchFrom (i + ks.length) stack rest := by
  induction h generalizing i stack rest with
  | nil => exact ⟨[], rfl⟩
  | @other k ks hk _ ih =>
    obtain ⟨gs, hgs⟩ := ih (i + 1) stack rest
    refine ⟨gs, ?_⟩
    rw [List.cons_append, matchFrom_other hk, hgs, List.length_cons, Nat.add_assoc,
      Nat.add_comm 1]
  | @pair k k' inner after hk _ _ ihinner ihafter =>
    obtain ⟨gs, hgs⟩ := ihinner (i + 1) ((i, k) :: stack) (k' :: (after ++ rest))
    obtain ⟨gs', hgs'⟩ := ihafter (i + 1 + inner.length + 1) stack rest
    refine ⟨gs ++ ⟨i, i + 1 + inner.length⟩ :: gs', ?_⟩
    have hlen : i + (k :: (inner ++ k' :: after)).length =
        i + 1 + inner.length + 1 + after.length := by
      simp only [List.length_cons, List.length_append]
      omega
    rw [List.cons_append, List.append_assoc, List.cons_append, matchFrom_opener hk, hgs,
      matchFrom_closer hk, hgs', hlen, List.append_assoc]
    rfl

theorem exists_matchFrom_cons (k : Kind) (i : Nat) (stack : List (Nat × Kind)) :
    ∃ gs stack', ∀ rest, matchFrom i stack (k :: rest) = gs ++ matchFrom (i + 1) stack' rest := by
  simp only [matchFrom]
  split
  · exact ⟨[], (i, k) :: stack, fun _ => rfl⟩
  · split
    · split
      · exact ⟨[], stack, fun _ => rfl⟩
      · rename_i o below _
        exact ⟨[⟨o.1, i⟩], below, fun _ => rfl⟩
    · exact ⟨[], stack, fun _ => rfl⟩

/-- What comes first decides which brackets are open, and nothing else. -/
theorem exists_matchFrom_append (before : List Kind) (i : Nat) (stack : List (Nat × Kind)) :
    ∃ gs stack', ∀ rest,
      matchFrom i stack (before ++ rest) = gs ++ matchFrom (i + before.length) stack' rest := by
  induction before generalizing i stack with
  | nil => exact ⟨[], stack, fun _ => rfl⟩
  | cons k before ih =>
    obtain ⟨gs, next, hfirst⟩ := exists_matchFrom_cons k i stack
    obtain ⟨gs', last, hbefore⟩ := ih (i + 1) next
    refine ⟨gs ++ gs', last, fun rest => ?_⟩
    rw [List.cons_append, hfirst, hbefore, List.append_assoc, List.length_cons, Nat.add_assoc,
      Nat.add_comm 1]

/-- Partners are matched, whatever stands around them. -/
theorem mem_all_of_partners (h : Partners ks g) : g ∈ all ks := by
  cases h with
  | @intro before inner after k k' hks hk hinner =>
    obtain ⟨gs, stack, hbefore⟩ := exists_matchFrom_append before 0 []
    obtain ⟨gs', hgs'⟩ := exists_matchFrom_balanced hinner (0 + before.length + 1)
      ((0 + before.length, k) :: stack) (k' :: after)
    rw [all, hks, hbefore, matchFrom_opener hk, hgs', matchFrom_closer hk]
    simp [Nat.add_right_comm]

end

structure Separate (g g' : Group) : Prop where
  opener_opener : g.opener ≠ g'.opener
  opener_closer : g.opener ≠ g'.closer
  closer_opener : g.closer ≠ g'.opener
  closer_closer : g.closer ≠ g'.closer

section
variable {groups : List Group} {i count : Nat} {g : Group} {a : Array (Option Group)}

theorem getElem?_foldl_of_ne (h : ∀ g ∈ groups, i ≠ g.opener ∧ i ≠ g.closer) :
    (groups.foldl
      (fun a g => (a.setIfInBounds g.opener (some g)).setIfInBounds g.closer (some g)) a)[i]? =
      a[i]? := by
  induction groups generalizing a with
  | nil => rfl
  | cons first groups ih =>
    obtain ⟨⟨ho, hc⟩, hrest⟩ := List.forall_mem_cons.mp h
    rw [List.foldl_cons, ih hrest, Array.getElem?_setIfInBounds_ne hc.symm,
      Array.getElem?_setIfInBounds_ne ho.symm]

theorem getElem?_foldl_of_mem (hsep : groups.Pairwise Separate) (hg : g ∈ groups)
    (hi : i = g.opener ∨ i = g.closer) (hlt : i < a.size) :
    (groups.foldl
      (fun a g => (a.setIfInBounds g.opener (some g)).setIfInBounds g.closer (some g)) a)[i]? =
      some (some g) := by
  induction groups generalizing a with
  | nil => cases hg
  | cons first groups ih =>
    obtain ⟨hfirst, hrest⟩ := List.pairwise_cons.mp hsep
    rw [List.foldl_cons]
    rcases List.mem_cons.mp hg with rfl | hg
    · rw [getElem?_foldl_of_ne]
      · simp only [Array.getElem?_setIfInBounds]
        grind
      · intro g' hg'
        obtain ⟨hoo, hoc, hco, hcc⟩ := hfirst g' hg'
        rcases hi with rfl | rfl
        · exact ⟨hoo, hoc⟩
        · exact ⟨hco, hcc⟩
    · exact ih hrest hg (by simpa using hlt)

/-- Each of some separate groups is noted on both of its brackets. -/
theorem getElem?_atIndexes_of_mem (hsep : groups.Pairwise Separate) (hg : g ∈ groups)
    (hi : i = g.opener ∨ i = g.closer) (hlt : i < count) :
    (atIndexes count groups)[i]? = some (some g) :=
  getElem?_foldl_of_mem hsep hg hi (by simpa using hlt)

theorem Before.separate {g' : Group} (h : g.Before g') (hlt : g.opener < g.closer) :
    Separate g g' := by
  obtain ⟨hcloser, hapart⟩ := h
  constructor <;> omega

end
def Disjoint (g g' : Group) : Prop :=
  g.closer < g'.opener ∨ g'.closer < g.opener

def Within (g g' : Group) : Prop :=
  g'.opener < g.opener ∧ g.closer < g'.closer

end Group

namespace Tokens
variable {ts : Tokens} {i j : Nat} {g g' : Group} {k : Kind}

abbrev kinds (ts : Tokens) : List Kind :=
  ts.toList.map (·.kind)

/-- A pair of brackets that match, recorded on both of them. -/
structure Pairs (ts : Tokens) (g : Group) : Prop where
  joins : g.Joins ts.kind?
  opener : ts.group? g.opener = some g
  closer : ts.group? g.closer = some g

theorem group?_withGroups (ts : Tokens) (hi : i < ts.size) :
    ts.withGroups.group? i = ((Group.atIndexes ts.size (Group.all ts.kinds))[i]?).join := by
  simp [group?, withGroups, hi]

/-- The groups of the kinds are pairs. -/
theorem pairs_of_mem_all (hg : g ∈ Group.all ts.kinds) : ts.withGroups.Pairs g := by
  have hjoins : ∀ g ∈ Group.all ts.kinds, g.Joins ts.kind? := fun g hg =>
    (Group.of_mem_matchFrom ts.follow_kinds .nil hg).1
  have hsep : (Group.all ts.kinds).Pairwise Group.Separate :=
    (Group.pairwise_matchFrom ts.follow_kinds .nil).imp_of_mem fun hg _ h =>
      h.separate (hjoins _ hg).lt
  have hnoted : ∀ i, i = g.opener ∨ i = g.closer → i < ts.size →
      ts.withGroups.group? i = some g := by
    intro i hi hlt
    rw [group?_withGroups ts hlt, Group.getElem?_atIndexes_of_mem hsep hg hi hlt]
    rfl
  obtain ⟨k, k', hk, hk', -⟩ := (hjoins g hg).kinds
  refine ⟨?_, hnoted _ (.inl rfl) (lt_size_of_kind? hk), hnoted _ (.inr rfl) (lt_size_of_kind? hk')⟩
  rw [kind?_withGroups]
  exact hjoins g hg

theorem pairs_withExtents (ts : Tokens) : ts.withExtents.Pairs = ts.Pairs := by
  funext g
  refine propext ⟨fun h => ⟨?_, ?_, ?_⟩, fun h => ⟨?_, ?_, ?_⟩⟩
  · exact kind?_withExtents ts ▸ h.joins
  · exact group?_withExtents ts ▸ h.opener
  · exact group?_withExtents ts ▸ h.closer
  · rw [kind?_withExtents]
    exact h.joins
  · rw [group?_withExtents]
    exact h.opener
  · rw [group?_withExtents]
    exact h.closer

/-- Pairs do not cross. -/
theorem Grouped.nested (h : ts.Grouped) (hg : ts.Pairs g) (hg' : ts.Pairs g') :
    g = g' ∨ g.Disjoint g' ∨ g.Within g' ∨ g'.Within g := by
  have hnested : ∀ {g g' : Group}, g.Before g' → g.Disjoint g' ∨ g.Within g' := by
    rintro g g' ⟨hcloser, hapart | hapart⟩
    · exact .inr ⟨hapart, hcloser⟩
    · exact .inl (.inl hapart)
  rcases h.apart _ _ _ _ hg.opener hg'.opener with heq | hbefore | hbefore
  · exact .inl heq
  · exact .inr ((hnested hbefore).imp_right .inl)
  · refine .inr ((hnested hbefore).imp Or.symm .inr)

/-- A bracket is in one pair at most. -/
theorem Pairs.eq (hg : ts.Pairs g) (hg' : ts.Pairs g') (hi : i = g.opener ∨ i = g.closer)
    (hi' : i = g'.opener ∨ i = g'.closer) : g = g' := by
  have hrecorded : ∀ {g}, ts.Pairs g → i = g.opener ∨ i = g.closer → ts.group? i = some g := by
    rintro g hg (rfl | rfl)
    · exact hg.opener
    · exact hg.closer
  exact Option.some.inj ((hrecorded hg hi).symm.trans (hrecorded hg' hi'))

/-- The body of what a keyword declares comes after its parameter list. -/
theorem Grouped.declare_lt {t : Token} {p b : Group} (h : ts.Grouped) (ht : t.parameters = none)
    (hb : t.body = none) (hpar : (ts.declare i t).parameters = some p)
    (hbody : (ts.declare i t).body = some b) : p.closer < b.opener := by
  have hafter : ∀ g, some g = some p → ts.bodyFrom (g.closer + 1) = some b →
      p.closer < b.opener := by
    rintro g ⟨⟩ hg
    exact (h.bodyFrom_spec hg).le
  revert hpar hbody
  unfold declare
  split
  · split
    · exact hafter _
    · simp [ht]
  · split
    · exact hafter _
    · simp [ht]
  · simp [hb]
  · split
    · exact hafter _
    · simp [ht]
  all_goals simp [ht]

theorem Grouped.withExtents_lt (h : ts.Grouped) (hplain : ∀ t ∈ ts, IsUnmarked t) {t : Token}
    (ht : ts.withExtents[i]? = some t) : ∀ p ∈ t.parameters, ∀ b ∈ t.body, p.closer < b.opener := by
  rw [getElem?_withExtents] at ht
  obtain ⟨t, hmem, rfl⟩ := Option.map_eq_some_iff.mp ht
  obtain ⟨hpar, hbody, -⟩ := hplain t (Array.mem_of_getElem? hmem)
  split
  · simp [hpar]
  · exact fun p hp b hb => h.declare_lt hpar hbody hp hb

end Tokens

section
open Tokens
variable {source : String} {i : Nat} {g : Group}

def unmarked (source : String) : Tokens :=
  (Piece.toTokens {} (Piece.assign none (Piece.cut false source.toList))).toArray

theorem tokenize_eq (source : String) :
    tokenize source = (unmarked source).withGroups.withExtents :=
  rfl

theorem kinds_tokenize (source : String) : (tokenize source).kinds = (unmarked source).kinds := by
  refine List.ext_getElem? fun i => ?_
  rw [← kind?_eq_getElem?, ← kind?_eq_getElem?, tokenize_eq, kind?_withExtents, kind?_withGroups]

theorem pairs_tokenize (hg : g ∈ Group.all (tokenize source).kinds) :
    (tokenize source).Pairs g := by
  rw [kinds_tokenize] at hg
  rw [tokenize_eq, pairs_withExtents]
  exact pairs_of_mem_all hg

theorem pairs_of_group? (hg : (tokenize source).group? i = some g) :
    (tokenize source).Pairs g ∧ (i = g.opener ∨ i = g.closer) := by
  rw [tokenize_eq, group?_withExtents] at hg
  obtain ⟨hall, hi⟩ := mem_all_of_group? hg
  exact ⟨pairs_tokenize (kinds_tokenize source ▸ hall), hi⟩

/-- A bracket with a partner is matched with it. -/
theorem group?_of_partners (hg : Group.Partners (tokenize source).kinds g)
    (hi : i = g.opener ∨ i = g.closer) : (tokenize source).group? i = some g := by
  have hpair := pairs_tokenize (Group.mem_all_of_partners hg)
  rcases hi with rfl | rfl
  · exact hpair.opener
  · exact hpair.closer

end

/-- The marks of brackets are well formed. A group is that of a pair, recorded on both of its
brackets; a bracket is in one pair at most, and two pairs are disjoint or nested. Brackets with a
balanced word between them are a pair, so that no bracket of a balanced file is left over. The
parameter list and the body of a declaration are pairs that come after its keyword one after the
other. -/
theorem brackets_paired (source : String) :
    (∀ i g, (tokenize source).group? i = some g →
      (tokenize source).Pairs g ∧ (i = g.opener ∨ i = g.closer)) ∧
    (∀ i g g', (tokenize source).Pairs g → (tokenize source).Pairs g' →
      (i = g.opener ∨ i = g.closer) → (i = g'.opener ∨ i = g'.closer) → g = g') ∧
    (∀ g g', (tokenize source).Pairs g → (tokenize source).Pairs g' →
      g = g' ∨ g.Disjoint g' ∨ g.Within g' ∨ g'.Within g) ∧
    (∀ g, Group.Partners (tokenize source).kinds g → (tokenize source).Pairs g) ∧
    (Group.Balanced ((tokenize source).kinds.filter Kind.isBracket) →
      ∀ i k, (tokenize source).kind? i = some k → k.isBracket = true →
        ∃ g, (tokenize source).group? i = some g ∧ Group.Partners (tokenize source).kinds g) ∧
    ∀ i t, (tokenize source)[i]? = some t →
      (∀ p ∈ t.parameters, (tokenize source).Pairs p ∧
        (tokenize source).kind? p.opener = some .openParen ∧ i < p.opener) ∧
      (∀ b ∈ t.body, (tokenize source).Pairs b ∧
        (tokenize source).kind? b.opener = some .openBrace ∧ i < b.opener) ∧
      ∀ p ∈ t.parameters, ∀ b ∈ t.body, p.closer < b.opener := by
  have hmarked := tokenize_marked source
  refine ⟨fun i g => pairs_of_group?, fun i g g' hg hg' => hg.eq hg',
    fun g g' => hmarked.nested, fun g hg => pairs_tokenize (Group.mem_all_of_partners hg),
    fun hbalanced i k hk hbracket => ?_, fun i t ht => ⟨fun p hp => ?_, fun b hb => ?_, ?_⟩⟩
  · rw [Tokens.kind?_eq_getElem?] at hk
    obtain ⟨g, hg, hi⟩ := (Group.balanced_of_filter hbalanced).exists_partners hk hbracket
    exact ⟨g, group?_of_partners hg hi, hg⟩
  · have hopens := hmarked.parameters i p (by rw [ht]; exact hp)
    exact ⟨(pairs_of_group? hopens.group).1, hopens.kind, hopens.le⟩
  · have hopens := hmarked.body i b (by rw [ht]; exact hb)
    exact ⟨(pairs_of_group? hopens.group).1, hopens.kind, hopens.le⟩
  · exact (Tokens.withGroups_grouped _).withExtents_lt (Tokens.withGroups_unmarked _ _) ht

end PhpDoc
