import PhpDoc.Outline.Walk
import PhpDoc.Proofs.Marks
import PhpDoc.Proofs.Steps
/-!
The progress of a statement. What it notes is sound: its regions start after its first token and end
before a closing bracket, and the comments that it meets are comments of the file. In its head it has
not come to a boundary.
-/
namespace PhpDoc.Outline
open Step

def OfFile (ts : Tokens) (comment : Option DocComment) : Prop :=
  ∀ c, comment = some c → ∃ opener, DocComment.read ts opener = .ok c

@[simp]
theorem ofFile_none (ts : Tokens) : OfFile ts none :=
  fun _ h => by cases h

/-- What a statement at an index may note: a visit with a comment of the file, or a region that starts
later and ends before a closing bracket. The region of a function has no statements of its own, only
its parameters and its body have. -/
inductive Noted (ts : Tokens) (i : Nat) (outer : Scope) : Item → Prop
  | visit {v : Visit} (comment : OfFile ts v.comment?) : Noted ts i outer (.visit v)
  | region {scope : Scope} {start stop : Nat} (starts : i < start) (settled : ts.Settled start)
    (ends : ts.kind? stop = some .closeBrace ∨ ts.kind? stop = some .closeParen)
    (kind : outer.kind ≠ .function → scope.kind ≠ .function) :
    Noted ts i outer (.region scope start stop)

structure Sound (ts : Tokens) (i : Nat) (outer : Scope) (p : Progress) : Prop where
  items : ∀ item ∈ p.items, Noted ts i outer item
  settled : ts.Settled i → ts.Settled p.position

structure Past (ts : Tokens) (i : Nat) (outer : Scope) (p : Progress) : Prop where
  lt : i < p.position
  sound : Sound ts i outer p

def isBoundary (k : Kind) : Bool :=
  [.semicolon, .openBrace, .closeBrace, .closeParen].contains k

structure Clear (ts : Tokens) (i j : Nat) : Prop where
  le : i ≤ j
  kind : ∀ n k, i < n → n < j → ts.kind? n = some k → isBoundary k = false

structure Head (ts : Tokens) (i : Nat) (outer : Scope) (p : Progress) : Prop where
  clear : Clear ts i p.position
  sound : Sound ts i outer p

section
variable {ts : Tokens} {i : Nat} {outer scope : Scope} {p : Progress}

theorem Sound.note {item : Item} (h : Sound ts i outer p) (hi : Noted ts i outer item) :
    Sound ts i outer { p with items := p.items ++ [item] } := by
  refine ⟨fun x hx => ?_, h.settled⟩
  rcases List.mem_append.mp hx with hx | hx
  · exact h.items x hx
  · exact List.mem_singleton.mp hx ▸ hi

theorem Sound.move {j : Nat} (h : Sound ts i outer p) (hj : j ≤ ts.size) :
    Sound ts i outer { p with position := ts.atOrAfter j } :=
  ⟨h.items, fun _ => Tokens.settled_atOrAfter hj⟩

theorem Clear.refl : Clear ts i i :=
  ⟨Nat.le_refl i, fun n k h h' => by omega⟩

theorem isTrivia_of_lt_atOrAfter {n j : Nat} {k : Kind} (hj : j ≤ n) (hn : n < ts.atOrAfter j)
    (hk : ts.kind? n = some k) : k.isTrivia = true := by
  fun_induction Tokens.atOrAfter ts j with
  | case1 j hlt htrivia ih =>
    by_cases hjn : j = n
    · subst hjn
      obtain rfl : ts[j].kind = k := by simpa [Tokens.kind?, hlt] using hk
      exact htrivia
    · exact ih (by omega) hn
  | case2 | case3 => omega

theorem Clear.next {j : Nat} (h : Clear ts i j)
    (hj : j = i ∨ ∀ k, ts.kind? j = some k → isBoundary k = false) : Clear ts i (ts.next j) := by
  have hlt := ts.lt_next j
  have := h.le
  refine ⟨by omega, fun n k hin hn hk => ?_⟩
  by_cases hnj : n < j
  · exact h.kind n k hin hnj hk
  · by_cases hn' : n = j
    · subst hn'
      rcases hj with hj | hj
      · omega
      · exact hj k hk
    · have htrivia := isTrivia_of_lt_atOrAfter (show j + 1 ≤ n by omega) hn hk
      cases k <;> first | rfl | cases htrivia

theorem Head.next (h : Head ts i outer p) (hp : p.position < ts.size)
    (hj : p.position = i ∨ ∀ k, ts.kind? p.position = some k → isBoundary k = false) :
    Head ts i outer { p with position := ts.next p.position } :=
  ⟨h.clear.next hj, h.sound.move hp⟩

theorem Head.past (h : Head ts i outer p) (hp : p.position < ts.size) :
    Past ts i outer { p with position := ts.next p.position } :=
  ⟨Nat.lt_of_le_of_lt h.clear.le (ts.lt_next _), h.sound.move hp⟩

theorem Head.meet {v : Visit} (h : Head ts i outer p) (hv : OfFile ts v.comment?) :
    Head ts i outer { p with items := p.items ++ [.visit v] } :=
  ⟨h.clear, h.sound.note (.visit hv)⟩

theorem kind?_eq_some {j : Nat} {t : Token} (h : ts[j]? = some t) : ts.kind? j = some t.kind := by
  rw [Tokens.kind?, h, Option.map_some]

theorem not_isBoundary_of_isName {k : Kind} (h : k.isName = true) : isBoundary k = false := by
  cases k <;> first | rfl | cases h

/-- A region that ends with the group of an opening brace or parenthesis. -/
theorem Noted.of_group {j n : Nat} {k : Kind} {g : Group} (hm : ts.Marked)
    (hg : Tokens.OpensFrom ts j k g) (hk : k = .openBrace ∨ k = .openParen) (hn : i < n)
    (hs : ts.Settled n) (hkind : outer.kind ≠ .function → scope.kind ≠ .function) :
    Noted ts i outer (.region scope n g.closer) := by
  obtain ⟨k₁, k₂, hk₁, hk₂, hc⟩ := (hm.joins _ _ hg.group).1.kinds
  rw [hg.kind] at hk₁
  cases hk₁
  refine .region hn hs ?_ hkind
  rcases hk with rfl | rfl
  · exact .inl (hk₂.trans hc.symm)
  · exact .inr (hk₂.trans hc.symm)

theorem lt_after_closer {j : Nat} {k : Kind} {g : Group} (hm : ts.Marked)
    (hg : Tokens.OpensFrom ts j k g) : j < ts.atOrAfter (g.closer + 1) := by
  have := hg.le
  have := (hm.joins _ _ hg.group).1.lt
  have := ts.le_atOrAfter (g.closer + 1)
  omega

theorem closer_lt_size {j : Nat} {k : Kind} {g : Group} (hm : ts.Marked)
    (hg : Tokens.OpensFrom ts j k g) : g.closer < ts.size :=
  have ⟨_, _, _, hk, _⟩ := (hm.joins _ _ hg.group).1.kinds
  Tokens.lt_size_of_kind? hk

/-- The region of a group starts at a position. -/
theorem settled_after_opener {j : Nat} {k : Kind} {g : Group} (hm : ts.Marked)
    (hg : Tokens.OpensFrom ts j k g) : ts.Settled (ts.atOrAfter (g.opener + 1)) :=
  Tokens.settled_atOrAfter (Nat.lt_trans (hm.joins _ _ hg.group).1.lt (closer_lt_size hm hg))

theorem opensFrom_of_group {j : Nat} {t : Token} {g : Group} (hm : ts.Marked)
    (ht : ts[j]? = some t) (hg : t.group = some g) (hk : t.kind.closer?.isSome) :
    Tokens.OpensFrom ts j t.kind g := by
  have hgroup : ts.group? j = some g := by rw [Tokens.group?, ht, Option.bind_some, hg]
  obtain rfl := hm.opener_eq hgroup (kind?_eq_some ht) hk
  exact ⟨Nat.le_refl _, hgroup, kind?_eq_some ht⟩

/-- Moving past the group of the bracket at the position; without a group nothing moves. -/
theorem overGroup_holds {k : Kind} (hm : ts.Marked) (hp : Past ts i outer p)
    (hkind : ts.kind? p.position = some k) (hk : k.closer?.isSome) :
    Holds ts (do jump ((← paired (← current).group).closer + 1)) (fun _ q => Past ts i outer q)
      (fun _ q => q = p) p := by
  simp only [holds_bind, holds_jump]
  refine holds_current (fun t ht => ?_) fun _ => rfl
  refine holds_paired (fun g hg => ?_) fun _ => rfl
  obtain rfl : t.kind = k := Option.some.inj ((kind?_eq_some ht).symm.trans hkind)
  have hopens := opensFrom_of_group hm ht hg hk
  exact ⟨Nat.lt_trans hp.lt (lt_after_closer hm hopens), hp.sound.move (closer_lt_size hm hopens)⟩

theorem kind_of_enter {r : Region} {inner : Scope} (h : scope.enter r = .ok inner) :
    inner.kind = r.kind := by
  unfold Scope.enter at h
  split at h
  · cases h
    split <;> simp_all
  · cases h

theorem enter_ne_function {r : Region} {inner : Scope} (h : scope.enter r = .ok inner)
    (hr : r.kind ≠ .function) : inner.kind ≠ .function :=
  kind_of_enter h ▸ hr

theorem kind_run (b : Binder) (comment : Option DocComment) :
    (b.run scope comment).kind = scope.kind := by
  cases comment <;> rfl

/-- Only the region of a function may not be entered from within one. -/
theorem enter_ne_error {r : Region} {e : ScanError} (hr : r.kind = .classLike ∨ r.kind = .function)
    (hs : scope.kind ≠ .function) : scope.enter r ≠ .error e := by
  unfold Scope.enter
  intro h
  split at h
  · cases h
  · rename_i hn
    rcases hr with hr | hr <;> cases hk : scope.kind <;> simp_all [ScopeKind.nested]

end
end PhpDoc.Outline
