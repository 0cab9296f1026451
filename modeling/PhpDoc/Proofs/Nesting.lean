import PhpDoc.Proofs.BracketPairs
/-!
Declarations and the brackets around them. A keyword takes the first parenthesis and the first brace
at its level that come after it, whether the pair of brackets it stands in has been closed by then
or not. Its parameter list and its body lie inside of this pair exactly if such a bracket comes
before the end of the pair.
-/
namespace PhpDoc

def Token.headEnd (t : Token) (i : Nat) : Nat :=
  match t.parameters with
  | some p => p.closer + 1
  | none => i + 1

namespace Tokens

structure Level (ts : Tokens) (i j : Nat) : Prop where
  le : i ≤ j
  closed : ∀ g, ts.Pairs g → i ≤ g.opener → g.opener < j → g.closer < j

def endsHead (k : Kind) : Bool :=
  [.openBrace, .semicolon, .closeBrace, .doubleArrow].contains k

variable {ts : Tokens} {i j n : Nat} {t : Token} {g b p : Group} {k : Kind}

theorem level_self (ts : Tokens) (i : Nat) : ts.Level i i :=
  ⟨Nat.le_refl i, fun _ _ hle hlt => absurd hlt (Nat.not_lt.mpr hle)⟩

theorem Level.of_le (h : ts.Level i j) (hn : i ≤ n) (hj : n ≤ j) : ts.Level n j :=
  ⟨hj, fun g hg hle => h.closed g hg (Nat.le_trans hn hle)⟩

/-- The end of a pair is at the level of every index inside of it. -/
theorem Grouped.level_closer (h : ts.Grouped) (hg : ts.Pairs g) (hi : g.opener < i)
    (hc : i ≤ g.closer) : ts.Level i g.closer := by
  refine ⟨hc, fun g' hg' hle hlt => ?_⟩
  rcases h.nested hg hg' with rfl | (hlater | hearlier) | hin | hin
  · omega
  · omega
  · have := hg'.joins.lt
    omega
  · have := hin.1
    omega
  · exact hin.2

/-- What opens inside of a pair closes inside of it. -/
theorem Grouped.within_of_opener (h : ts.Grouped) (hg : ts.Pairs g) (hb : ts.Pairs b)
    (ho : g.opener < b.opener) (hc : b.opener < g.closer) : b.Within g := by
  rcases h.nested hb hg with rfl | (hlater | hearlier) | hin | hin
  · omega
  · have := hb.joins.lt
    omega
  · omega
  · exact hin
  · have := hin.1
    omega

/-- A pair that opens after an index inside of a pair lies inside of that pair or after it. -/
theorem Grouped.within_iff (h : ts.Grouped) (hg : ts.Pairs g) (hb : ts.Pairs b)
    (ho : g.opener < b.opener) : b.Within g ↔ b.opener < g.closer :=
  ⟨fun hin => Nat.lt_trans hb.joins.lt hin.2, h.within_of_opener hg hb ho⟩

/-- A pair that opens in what is gone past closes there as well. -/
theorem Grouped.closer_lt_past (h : ts.Grouped) (hpair : ∀ g, ts.group? i = some g → ts.Pairs g)
    (hg : ts.Pairs g) (hle : i ≤ g.opener) (hlt : g.opener < past i (ts.group? i)) :
    g.closer < past i (ts.group? i) := by
  rcases Nat.eq_or_lt_of_le hle with rfl | hafter
  · rw [hg.opener, past, if_pos hg.joins.lt]
    exact Nat.lt_succ_self _
  · unfold past at hlt ⊢
    split at hlt
    · rename_i outer houter
      split at hlt
      · rename_i hc
        rw [if_pos hc]
        have hopens : i = outer.opener := (h.joins i outer houter).2.resolve_right (Nat.ne_of_lt hc)
        have hpairs := hpair outer houter
        have hin : g.opener < outer.closer := by
          refine Nat.lt_of_le_of_ne (Nat.le_of_lt_succ hlt) fun heq => ?_
          obtain rfl := hg.eq hpairs (.inl rfl) (.inr heq)
          omega
        exact Nat.lt_succ_of_lt (h.within_of_opener hpairs hg (hopens ▸ hafter) hin).2
      · omega
    · omega

/-- Going past a group keeps the level. -/
theorem Grouped.level_past_iff (h : ts.Grouped)
    (hpair : ∀ g, ts.group? i = some g → ts.Pairs g) :
    ts.Level i j ↔ j = i ∨ ts.Level (past i (ts.group? i)) j := by
  constructor
  · intro hl
    rcases Nat.eq_or_lt_of_le hl.le with rfl | hlt
    · exact .inl rfl
    · refine .inr (hl.of_le (Nat.le_of_lt (lt_past i _)) ?_)
      unfold past
      split
      · rename_i g hg
        split
        · -- the group opens here, and so is closed before `j`
          rename_i hc
          have hopens : i = g.opener := (h.joins i g hg).2.resolve_right (Nat.ne_of_lt hc)
          exact hl.closed g (hpair g hg) (Nat.le_of_eq hopens) (hopens ▸ hlt)
        · exact hlt
      · exact hlt
  · rintro (rfl | hl)
    · exact ts.level_self j
    · refine ⟨Nat.le_trans (Nat.le_of_lt (lt_past i _)) hl.le, fun g hg hle hlt => ?_⟩
      rcases Nat.lt_or_ge g.opener (past i (ts.group? i)) with hin | hout
      · exact Nat.lt_of_lt_of_le (h.closer_lt_past hpair hg hle hin) hl.le
      · exact hl.closed g hg hout hlt

/-- The search for a parameter list finds the first parenthesis. -/
theorem parameterOpener_le (h : ts.parameterOpener i = some j) (hn : i ≤ n)
    (hk : ts.kind? n = some .openParen) : j ≤ n := by
  fun_induction parameterOpener ts i with
  | case1 i hi =>
    cases h
    exact hn
  | case2 | case3 | case5 => cases h
  | case4 i hi hopen hsemi hbrace ih =>
    refine ih h (Nat.lt_of_le_of_ne hn fun heq => hopen ?_)
    subst heq
    simpa [kind?, hi] using hk

/-- The search for a body finds the first brace at the level where it starts, and nothing at this
level ends the head before. -/
theorem Grouped.bodyOpener_level (h : ts.Grouped)
    (hpair : ∀ i g, ts.group? i = some g → ts.Pairs g) (hb : ts.bodyOpener i = some j) :
    ts.Level i j ∧ ∀ n k, ts.Level i n → ts.kind? n = some k → endsHead k = true → j ≤ n := by
  fun_induction bodyOpener ts i with
  | case1 i hi =>
    cases hb
    exact ⟨ts.level_self j, fun n k hl _ _ => hl.le⟩
  | case2 | case3 | case4 | case6 => cases hb
  | case5 i hi hopen hsemi hclose harrow ih =>
    have hgroup : ts[i].group = ts.group? i := by simp [group?, hi]
    rw [hgroup] at ih hb
    obtain ⟨hlevel, hfirst⟩ := ih hb
    refine ⟨(h.level_past_iff (hpair i)).mpr (.inr hlevel), fun n k hl hk hends => ?_⟩
    rcases (h.level_past_iff (hpair i)).mp hl with rfl | hl
    · obtain rfl : ts[n].kind = k := by simpa [kind?, hi] using hk
      have hkinds : ts[n].kind = .openBrace ∨ ts[n].kind = .semicolon ∨
          ts[n].kind = .closeBrace ∨ ts[n].kind = .doubleArrow := by simpa [endsHead] using hends
      rcases hkinds with hkind | hkind | hkind | hkind
      · exact (hopen hkind).elim
      · exact (hsemi hkind).elim
      · exact (hclose hkind).elim
      · exact (harrow hkind).elim
    · exact hfirst n k hl hk hends

/-- A keyword is marked with what the searches find. -/
theorem declare_found (ht : t.parameters = none) (hb : t.body = none) :
    (∀ p ∈ (ts.declare i t).parameters, ts.parameterList i = some p) ∧
      ∀ b ∈ (ts.declare i t).body, ts.bodyFrom ((ts.declare i t).headEnd i) = some b := by
  unfold declare
  split
  · split
    · rename_i p hp
      simp [Token.headEnd, hp]
    · simp [ht, hb]
  · split
    · rename_i p hp
      simp [Token.headEnd, hp]
    · simp [ht, hb]
  · simp [hb]
  · split
    · rename_i p hp
      simp [Token.headEnd, hp]
    · simp [ht, Token.headEnd]
  all_goals simp [ht, hb, Token.headEnd]

end Tokens

section
open Tokens
variable {source : String} {i : Nat} {t : Token} {p b : Group}

theorem pairs_unmarked {g : Group} (hg : (unmarked source).withGroups.group? i = some g) :
    (unmarked source).withGroups.Pairs g :=
  pairs_of_mem_all (mem_all_of_group? hg).1

/-- The marks of a keyword are what the searches find before anything is marked. -/
theorem found_of_tokenize (ht : (tokenize source)[i]? = some t) :
    (∀ p ∈ t.parameters, (unmarked source).withGroups.parameterList i = some p) ∧
      ∀ b ∈ t.body, (unmarked source).withGroups.bodyFrom (t.headEnd i) = some b := by
  rw [tokenize_eq, getElem?_withExtents] at ht
  obtain ⟨u, hu, rfl⟩ := Option.map_eq_some_iff.mp ht
  obtain ⟨hpar, hbody, -⟩ := withGroups_unmarked _ _ u (Array.mem_of_getElem? hu)
  split
  · simp [hpar, hbody]
  · exact declare_found hpar hbody

theorem parameters_le {n : Nat} (ht : (tokenize source)[i]? = some t) (hp : p ∈ t.parameters)
    (hn : i < n) (hk : (tokenize source).kind? n = some .openParen) : p.opener ≤ n := by
  rw [tokenize_eq, kind?_withExtents] at hk
  obtain ⟨j, hj, hg⟩ := Option.bind_eq_some_iff.mp ((found_of_tokenize ht).1 p hp)
  have hgrouped := withGroups_grouped (unmarked source)
  obtain rfl := hgrouped.opener_eq hg (parameterOpener_spec hj).2 rfl
  exact parameterOpener_le hj hn hk

theorem body_level (ht : (tokenize source)[i]? = some t) (hb : b ∈ t.body) :
    (tokenize source).Level (t.headEnd i) b.opener ∧
      ∀ n k, (tokenize source).Level (t.headEnd i) n → (tokenize source).kind? n = some k →
        endsHead k = true → b.opener ≤ n := by
  have hgrouped := withGroups_grouped (unmarked source)
  obtain ⟨j, hj, hg⟩ := Option.bind_eq_some_iff.mp ((found_of_tokenize ht).2 b hb)
  obtain rfl := hgrouped.opener_eq hg (bodyOpener_spec hj).2 rfl
  obtain ⟨hlevel, hfirst⟩ := hgrouped.bodyOpener_level (fun i g => pairs_unmarked) hj
  have hpairs : (tokenize source).Pairs = (unmarked source).withGroups.Pairs :=
    pairs_withExtents _
  have hsame : ∀ {i n}, (tokenize source).Level i n ↔ (unmarked source).withGroups.Level i n :=
    ⟨fun h => ⟨h.le, hpairs ▸ h.closed⟩, fun h => ⟨h.le, hpairs ▸ h.closed⟩⟩
  refine ⟨hsame.mpr hlevel, fun n k hl hk => hfirst n k (hsame.mp hl) ?_⟩
  rwa [tokenize_eq, kind?_withExtents] at hk

/-- A mark of a keyword inside of a pair lies inside of that pair or after it. -/
theorem within_or_after {g m : Group} {k : Kind} (hg : (tokenize source).Pairs g)
    (ho : g.opener < i) (hm : OpensFrom (tokenize source) (i + 1) k m) :
    (m.Within g ↔ m.opener < g.closer) ∧ (m.Within g ∨ g.closer < m.opener) := by
  have hpairs := (pairs_of_group? hm.group).1
  have hiff := (tokenize_marked source).within_iff hg hpairs (Nat.lt_trans ho hm.le)
  refine ⟨hiff, ?_⟩
  rw [hiff]
  refine (Nat.lt_or_ge m.opener g.closer).imp_right fun hge => ?_
  refine Nat.lt_of_le_of_ne hge fun heq => ?_
  obtain rfl := hpairs.eq hg (.inl rfl) (.inr heq.symm)
  have := hg.joins.lt
  omega

/-- Inside of a block the search for a body gets no further than its end, if it starts there. -/
theorem body_le_closer {g : Group} (hg : (tokenize source).Pairs g)
    (hbrace : (tokenize source).kind? g.opener = some .openBrace)
    (ht : (tokenize source)[i]? = some t) (hb : b ∈ t.body) (ho : g.opener < t.headEnd i)
    (hc : t.headEnd i ≤ g.closer) : b.opener ≤ g.closer := by
  obtain ⟨k, k', hk, hclose, hkk'⟩ := hg.joins.kinds
  obtain rfl := Option.some.inj (hbrace.symm.trans hk)
  obtain rfl := Option.some.inj hkk'
  have hlevel := (tokenize_marked source).level_closer hg ho hc
  exact (body_level ht hb).2 _ _ hlevel hclose rfl

/-- What a keyword inside of a pair of brackets declares. Its parameter list lies inside of the pair
exactly if a parenthesis opens between the keyword and the end of the pair; its body does exactly if
a brace opens there at the level of the end of its head. A mark that does not lie inside of the pair
comes after it. Out of a block no body gets unless the parameter list does. -/
theorem marks_within_iff {g : Group} (hg : (tokenize source).Pairs g) (ho : g.opener < i)
    (hc : i < g.closer) (ht : (tokenize source)[i]? = some t) :
    (∀ p ∈ t.parameters, p.Within g ↔
      ∃ n, i < n ∧ n < g.closer ∧ (tokenize source).kind? n = some .openParen) ∧
    (∀ b ∈ t.body, b.Within g ↔
      ∃ n, (tokenize source).Level (t.headEnd i) n ∧ n < g.closer ∧
        (tokenize source).kind? n = some .openBrace) ∧
    (∀ m, m ∈ t.parameters ∨ m ∈ t.body → m.Within g ∨ g.closer < m.opener) ∧
    ((tokenize source).kind? g.opener = some .openBrace → (∀ p ∈ t.parameters, p.Within g) →
      ∀ b ∈ t.body, b.Within g) := by
  have hmarked := tokenize_marked source
  have hpar : ∀ p ∈ t.parameters, OpensFrom (tokenize source) (i + 1) .openParen p :=
    fun p hp => hmarked.parameters i p (by rw [ht]; exact hp)
  have hbody : ∀ b ∈ t.body, OpensFrom (tokenize source) (i + 1) .openBrace b :=
    fun b hb => hmarked.body i b (by rw [ht]; exact hb)
  refine ⟨fun p hp => ?_, fun b hb => ?_, ?_, fun hbrace hin b hb => ?_⟩
  · rw [(within_or_after hg ho (hpar p hp)).1]
    refine ⟨fun hlt => ⟨p.opener, (hpar p hp).le, hlt, (hpar p hp).kind⟩, ?_⟩
    rintro ⟨n, hn, hlt, hk⟩
    exact Nat.lt_of_le_of_lt (parameters_le ht hp hn hk) hlt
  · rw [(within_or_after hg ho (hbody b hb)).1]
    obtain ⟨hlevel, hfirst⟩ := body_level ht hb
    refine ⟨fun hlt => ⟨b.opener, hlevel, hlt, (hbody b hb).kind⟩, ?_⟩
    rintro ⟨n, hl, hlt, hk⟩
    exact Nat.lt_of_le_of_lt (hfirst n _ hl hk rfl) hlt
  · rintro m (hm | hm)
    · exact (within_or_after hg ho (hpar m hm)).2
    · exact (within_or_after hg ho (hbody m hm)).2
  · have hhead : g.opener < t.headEnd i ∧ t.headEnd i ≤ g.closer := by
      unfold Token.headEnd
      split
      · rename_i p hp
        have hlt := (pairs_of_group? (hpar p hp).group).1.joins.lt
        exact ⟨Nat.lt_succ_of_lt (Nat.lt_trans (hin p hp).1 hlt), (hin p hp).2⟩
      · exact ⟨Nat.lt_succ_of_lt ho, hc⟩
    have hle := body_le_closer hg hbrace ht hb hhead.1 hhead.2
    exact (within_or_after hg ho (hbody b hb)).2.resolve_right (Nat.not_lt.mpr hle)

def classInBlock : String :=
  "<?php { class A {} }"

def namedArgument : String :=
  "<?php if (f(class: 1)) {}"

theorem marks_within_iff_classInBlock : (tokenize classInBlock).Pairs ⟨1, 10⟩ ∧
    ∃ t, (tokenize classInBlock)[3]? = some t ∧ t.body = some ⟨7, 8⟩ ∧
      Group.Within ⟨7, 8⟩ ⟨1, 10⟩ := by
  have hg : (tokenize classInBlock).Pairs ⟨1, 10⟩ :=
    (pairs_of_group? (i := 1) (by decide +kernel)).1
  have hbody : ((tokenize classInBlock)[3]?.bind (·.body)) = some ⟨7, 8⟩ := by decide +kernel
  obtain ⟨t, ht, hb⟩ := Option.bind_eq_some_iff.mp hbody
  have hpar : ((tokenize classInBlock)[3]?.bind (·.parameters)) = none := by decide +kernel
  have hnone : t.parameters = none := by rwa [ht] at hpar
  have hiff := marks_within_iff hg (by decide) (by decide) ht
  exact ⟨hg, t, ht, hb, hiff.2.2.2 (by decide +kernel) (by simp [hnone]) _ hb⟩

/-- The name of an argument takes the block after the call for its body. -/
theorem not_marks_within : ¬∀ (source : String) (g : Group) (i : Nat) (t : Token),
    (tokenize source).Pairs g → g.opener < i → i < g.closer → (tokenize source)[i]? = some t →
      (∀ p ∈ t.parameters, p.Within g) ∧ ∀ b ∈ t.body, b.Within g := by
  intro h
  have hg : (tokenize namedArgument).Pairs ⟨5, 10⟩ :=
    (pairs_of_group? (i := 5) (by decide +kernel)).1
  have hbody : ((tokenize namedArgument)[6]?.bind (·.body)) = some ⟨13, 14⟩ := by decide +kernel
  obtain ⟨t, ht, hb⟩ := Option.bind_eq_some_iff.mp hbody
  have hin := (h namedArgument _ 6 t hg (by decide) (by decide) ht).2 _ hb
  exact absurd hin.2 (by decide)

end

end PhpDoc
