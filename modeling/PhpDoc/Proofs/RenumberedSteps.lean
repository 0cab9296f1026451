import Mathlib.Data.List.Forall2
import PhpDoc.Proofs.CommentBlocks
import PhpDoc.Proofs.Imports
import PhpDoc.Proofs.RenumberedDeclarations
/-!
Steps over a file whose tokens are numbered anew. A step comes to the place that corresponds and notes
the same, but for the numbers of tokens and for what is in the comments.
-/
namespace PhpDoc

def Scope.renumber (f : Nat → Nat) (s : Scope) : Scope :=
  { s with closer := s.closer.map f }

def Region.renumber (f : Nat → Nat) (r : Region) : Region :=
  { r with closer := r.closer.map f }

def ScanError.renumber (f : Nat → Nat) (e : ScanError) : ScanError :=
  { e with place := e.place.map f }

section
variable (f : Nat → Nat) (s : Scope)

@[simp] theorem Scope.kind_renumber : (s.renumber f).kind = s.kind := rfl

@[simp] theorem Scope.qualify_renumber : (s.renumber f).qualify = s.qualify := rfl

@[simp] theorem Scope.resolve_renumber : (s.renumber f).resolve = s.resolve := rfl

theorem Scope.enter_renumber (r : Region) : (s.renumber f).enter (r.renumber f) =
    match s.enter r with
    | .ok inner => .ok (inner.renumber f)
    | .error e => .error (e.renumber f) := by
  obtain ⟨kind, closer, className, parentName, nameSpace⟩ := r
  unfold Scope.enter
  change (if s.kind.nested.contains kind then _ else _) = _
  split
  · cases kind <;> rfl
  · rfl

end

/-- A token that keeps its place: it does not fall together with the next one. -/
abbrev KeepsPlace (f : Nat → Nat) (i : Nat) : Prop :=
  f (i + 1) = f i + 1

inductive Visit.Becomes (f : Nat → Nat) (related : DocComment → DocComment → Prop) :
    Visit → Visit → Prop
  | nameSpace (name : String) : Becomes f related (.nameSpace name) (.nameSpace name)
  | imported (name short : String) : Becomes f related (.imported name short) (.imported name short)
  | comment {c c' : DocComment} (hc : related c c') : Becomes f related (.comment c) (.comment c')
  | classLike (name parent : Option String) (interfaces : List String) :
    Becomes f related (.classLike name parent interfaces) (.classLike name parent interfaces)
  | function (name : Option String) : Becomes f related (.function name) (.function name)
  | declared (names : List String) : Becomes f related (.declared names) (.declared names)
  | templates (s : Scope) {c c' : DocComment} (hc : related c c') :
    Becomes f related (.templates s c) (.templates (s.renumber f) c')
  | classDocs (s : Scope) {c c' : DocComment} (hc : related c c') :
    Becomes f related (.classDocs s c) (.classDocs (s.renumber f) c')
  | functionDocs (s : Scope) {place : Nat} (name : Option String) {c c' : Option DocComment}
    (hplace : KeepsPlace f place) (hc : Option.Rel related c c') :
    Becomes f related (.functionDocs s place name c) (.functionDocs (s.renumber f) (f place) name c')
  | variableDocs (s : Scope) {place : Nat} (names : List String) {c c' : Option DocComment}
    (native : Option String) (hplace : KeepsPlace f place) (hc : Option.Rel related c c') :
    Becomes f related (.variableDocs s place names c native)
      (.variableDocs (s.renumber f) (f place) names c' native)
  | fault (e : ScanError) (hplace : ∀ i ∈ e.place, KeepsPlace f i) :
    Becomes f related (.fault e) (.fault (e.renumber f))

namespace Outline
open Step

/-- A file and another one that has its tokens under other numbers, with the comments that are
related. -/
structure Renumbering (ts ts' : Tokens) where
  number : Nat → Nat
  related : DocComment → DocComment → Prop
  renumbers : ts.Renumbers ts' number
  marked : ts.Marked
  enclosed : ts.Enclosed
  before : ∀ i, i ≤ ts.size →
    Option.Rel related (DocComment.before ts i) (DocComment.before ts' (number i))

namespace Renumbering
variable {ts ts' : Tokens} {α β γ δ : Type}

inductive ItemBecomes (ρ : Renumbering ts ts') : Item → Item → Prop
  | visit {v v' : Visit} (h : v.Becomes ρ.number ρ.related v') : ItemBecomes ρ (.visit v) (.visit v')
  | region (s : Scope) {start stop : Nat} (hstart : ts.Settled start)
    (hstop : KeepsPlace ρ.number stop) :
    ItemBecomes ρ (.region s start stop)
      (.region (s.renumber ρ.number) (ρ.number start) (ρ.number stop))

structure ProgressBecomes (ρ : Renumbering ts ts') (p q : Progress) : Prop where
  position : q.position = ρ.number p.position
  settled : ts.Settled p.position
  items : List.Forall₂ ρ.ItemBecomes p.items q.items

inductive Corresponds (ρ : Renumbering ts ts') (R : α → β → Prop) :
    Except ScanError α × Progress → Except ScanError β × Progress → Prop
  | ok {a : α} {b : β} {p q : Progress} (value : R a b) (progress : ρ.ProgressBecomes p q) :
    Corresponds ρ R (.ok a, p) (.ok b, q)
  | error {e : ScanError} {p q : Progress} (place : ∀ i ∈ e.place, KeepsPlace ρ.number i)
    (progress : ρ.ProgressBecomes p q) :
    Corresponds ρ R (.error e, p) (.error (e.renumber ρ.number), q)

def Carries (ρ : Renumbering ts ts') (R : α → β → Prop) (x : Step α) (y : Step β) : Prop :=
  ∀ p q, ρ.ProgressBecomes p q →
    ρ.Corresponds R (((x.run ts).run).run p) (((y.run ts').run).run q)

structure Anchors (ρ : Renumbering ts ts') (g : Group) : Prop where
  opener : KeepsPlace ρ.number g.opener
  closer : KeepsPlace ρ.number g.closer
  lt : g.opener < g.closer
  lt_size : g.closer < ts.size

structure Stands (ρ : Renumbering ts ts') (t t' : Token) : Prop extends t.Becomes ρ.number t' where
  same : t'.text = t.text
  anchored : ∀ g, t.group = some g ∨ t.parameters = some g ∨ t.body = some g → ρ.Anchors g

def At (ρ : Renumbering ts ts') (i j : Nat) : Prop :=
  ts.Settled i ∧ j = ρ.number i

def Scoped (ρ : Renumbering ts ts') (s s' : Scope) : Prop :=
  s' = s.renumber ρ.number

def Paired (ρ : Renumbering ts ts') (g g' : Group) : Prop :=
  g' = g.renumber ρ.number ∧ ρ.Anchors g

variable {ρ : Renumbering ts ts'} {R : α → β → Prop} {S : γ → δ → Prop} {i : Nat} {s : Scope}

theorem keeps_of_settled (ρ : Renumbering ts ts') (h : ts.Settled i) : KeepsPlace ρ.number i :=
  ρ.renumbers.succ_of_settled h

/-- Tokens that keep their places have different ones. -/
theorem number_inj (ρ : Renumbering ts ts') {i j : Nat} (hi : KeepsPlace ρ.number i)
    (hj : KeepsPlace ρ.number j) : ρ.number i = ρ.number j ↔ i = j := by
  refine ⟨fun h => Nat.le_antisymm ?_ ?_, congrArg ρ.number⟩
  · exact (ρ.renumbers.le_iff hj).mp (Nat.le_of_eq h)
  · exact (ρ.renumbers.le_iff hi).mp (Nat.le_of_eq h.symm)

theorem ProgressBecomes.move {p q : Progress} (h : ρ.ProgressBecomes p q) (hi : ts.Settled i) :
    ρ.ProgressBecomes { p with position := i } { q with position := ρ.number i } :=
  ⟨rfl, hi, h.items⟩

theorem ProgressBecomes.note {p q : Progress} (h : ρ.ProgressBecomes p q) {x y : Item}
    (hxy : ρ.ItemBecomes x y) :
    ρ.ProgressBecomes { p with items := p.items ++ [x] } { q with items := q.items ++ [y] } :=
  ⟨h.position, h.settled, List.rel_append h.items (.cons hxy .nil)⟩

namespace Carries

theorem pure {a : α} {b : β} (h : R a b) : ρ.Carries R (Pure.pure a) (Pure.pure b) :=
  fun _ _ hpq => .ok h hpq

theorem throw {e : ScanError} (he : ∀ i ∈ e.place, KeepsPlace ρ.number i) :
    ρ.Carries R (MonadExcept.throw e : Step α)
      (MonadExcept.throw (e.renumber ρ.number) : Step β) :=
  fun _ _ hpq => .error he hpq

/-- A fault without a place is the same in the other file. -/
theorem throw_nowhere (fault : ScanFault) :
    ρ.Carries R (MonadExcept.throw ⟨fault, none⟩ : Step α)
      (MonadExcept.throw ⟨fault, none⟩ : Step β) :=
  throw (e := ⟨fault, none⟩) (by simp)

theorem bind {x : Step α} {y : Step β} {f : α → Step γ} {g : β → Step δ} (h : ρ.Carries R x y)
    (hfg : ∀ a b, R a b → ρ.Carries S (f a) (g b)) : ρ.Carries S (x >>= f) (y >>= g) := by
  intro p q hpq
  have hxy := h p q hpq
  simp only [ReaderT.run_bind, ExceptT.run_bind, StateT.run_bind]
  generalize ((x.run ts).run).run p = r at hxy ⊢
  generalize ((y.run ts').run).run q = r' at hxy ⊢
  cases hxy with
  | ok hab hpq => exact hfg _ _ hab _ _ hpq
  | error he hpq => exact .error he hpq

/-- Two steps that begin with the same step. -/
theorem next {x : Step α} {y : Step α} {f : α → Step γ} {g : α → Step δ} (h : ρ.Carries Eq x y)
    (hfg : ∀ a, ρ.Carries S (f a) (g a)) : ρ.Carries S (x >>= f) (y >>= g) :=
  h.bind fun a _ hab => hab ▸ hfg a

theorem read : ρ.Carries (fun us us' => us = ts ∧ us' = ts') read read :=
  fun _ _ hpq => .ok ⟨rfl, rfl⟩ hpq

/-- Two steps that begin with a look at the file. -/
theorem reading {f : Tokens → Step γ} {g : Tokens → Step δ} (h : ρ.Carries S (f ts) (g ts')) :
    ρ.Carries S (MonadReader.read >>= f) (MonadReader.read >>= g) :=
  read.bind fun _ _ hus => by rwa [hus.1, hus.2]

theorem position : ρ.Carries ρ.At position position :=
  fun _ _ hpq => .ok ⟨hpq.settled, hpq.position⟩ hpq

/-- Two steps that begin with the position. -/
theorem placed {f : Nat → Step γ} {g : Nat → Step δ}
    (h : ∀ i, ts.Settled i → ρ.Carries S (f i) (g (ρ.number i))) :
    ρ.Carries S (Step.position >>= f) (Step.position >>= g) :=
  position.bind fun i _ ⟨hi, hj⟩ => hj ▸ h i hi

theorem kind? : ρ.Carries Eq kind? kind? := by
  intro p q hpq
  refine .ok ?_ hpq
  rw [hpq.position, ρ.renumbers.kind?_eq (ρ.keeps_of_settled hpq.settled)]

theorem fail (fault : ScanFault) :
    ρ.Carries R (Step.fail fault : Step α) (Step.fail fault : Step β) :=
  placed fun i hi => throw (e := ⟨fault, some i⟩) fun j hj => by
    cases hj
    exact ρ.keeps_of_settled hi

theorem move (hi : ts.Settled i) : ρ.Carries Eq (modify fun p => { p with position := i })
    (modify fun p => { p with position := ρ.number i }) :=
  fun _ _ hpq => .ok rfl (hpq.move hi)

/-- What stands at a position of the walk. -/
theorem getElem?_settled (ρ : Renumbering ts ts') (hi : ts.Settled i) :
    (ts[i]? = none ∧ ts'[ρ.number i]? = none) ∨
      ∃ t t', ts[i]? = some t ∧ ts'[ρ.number i]? = some t' ∧ ρ.Stands t t' := by
  refine (ρ.renumbers.getElem?_eq (ρ.keeps_of_settled hi)).imp_right ?_
  rintro ⟨t, t', ht, ht', hbec⟩
  obtain ⟨hlt, rfl⟩ := Array.getElem?_eq_some_iff.mp ht
  have hkind : ts[i].kind ≠ .docText := by
    intro hk
    have hhere := hi.here
    rw [Tokens.atOrAfter, dif_pos hlt, if_pos (by rw [hk]; rfl)] at hhere
    have := ts.le_atOrAfter (i + 1)
    omega
  refine ⟨_, t', ht, ht', hbec, hbec.text hkind, fun g hg => ?_⟩
  obtain ⟨hopener, hcloser⟩ := ρ.renumbers.marks i hlt g hg
  obtain ⟨hbefore, _, _, -, hk, -⟩ := ρ.marked.joins_of_mark hlt hg
  exact ⟨hopener, hcloser, hbefore, Tokens.lt_size_of_kind? hk⟩

theorem current : ρ.Carries ρ.Stands current current := by
  refine reading (placed fun i hi => ?_)
  obtain ⟨hnone, hnone'⟩ | ⟨t, t', ht, ht', hbec⟩ := getElem?_settled ρ hi
  · rw [hnone, hnone']
    exact throw_nowhere _
  · rw [ht, ht']
    exact pure hbec

theorem take (expected : Option Kind) :
    ρ.Carries ρ.Stands (take expected) (take expected) := by
  refine reading (placed fun i hi => ?_)
  have hkeeps := ρ.keeps_of_settled hi
  unfold Tokens.advance
  obtain ⟨hnone, hnone'⟩ | ⟨t, t', ht, ht', hbec⟩ := getElem?_settled ρ hi
  · rw [hnone, hnone']
    exact throw_nowhere _
  · have hnext := Tokens.settled_next (Tokens.lt_size ht)
    simp only [ht, ht', hbec.kind, hbec.same, ρ.renumbers.next_eq hkeeps]
    cases expected with
    | none => exact (move hnext).next fun _ => .pure hbec
    | some k =>
      by_cases hk : t.kind = k
      · simp only [hk, if_true]
        exact (move hnext).next fun _ => .pure hbec
      · simp only [hk, if_false]
        exact throw (e := ⟨.expected k.label t.text, some i⟩) fun j hj => by
          cases hj
          exact hkeeps

theorem accept (k : Kind) : ρ.Carries Eq (accept k) (accept k) := by
  refine kind?.next fun k' => ?_
  split
  · exact (take none).bind fun _ _ _ => .pure rfl
  · exact .pure rfl

theorem jump (hi : i ≤ ts.size) : ρ.Carries Eq (jump i) (jump (ρ.number i)) := by
  refine reading ?_
  rw [ρ.renumbers.atOrAfter_eq]
  exact move (Tokens.settled_atOrAfter hi)

/-- Moving past a token that keeps its place. -/
theorem jump_past (hi : i < ts.size) (hkeeps : KeepsPlace ρ.number i) :
    ρ.Carries Eq (Step.jump (i + 1)) (Step.jump (ρ.number i + 1)) :=
  hkeeps ▸ jump hi

theorem paired {g g' : Option Group} (hg : g' = g.map (·.renumber ρ.number))
    (hanchors : ∀ x, g = some x → ρ.Anchors x) : ρ.Carries ρ.Paired (paired g) (paired g') := by
  subst hg
  cases g with
  | none => exact .fail _
  | some g => exact .pure ⟨rfl, hanchors g rfl⟩

theorem seek_eq (ρ : Renumbering ts ts') (kinds : List Kind) (hkinds : ∀ k ∈ kinds, k.isBody = false)
    (hi : ts.Settled i) : seek ts' kinds (ρ.number i) = ρ.number (seek ts kinds i) := by
  fun_induction seek ts kinds i with
  | case1 i hlt hk =>
    obtain ⟨-, hi', hbec⟩ := ρ.renumbers.kept hlt (hkinds _ (by simpa using hk))
    rw [seek, dif_pos hi', hbec.kind, if_pos hk]
  | case2 i hlt hk ih =>
    have hkeeps := ρ.keeps_of_settled hi
    obtain ⟨hi', hbec⟩ := ((ρ.renumbers.step i hlt).resolve_left fun hout => by
      have := hout.succ
      omega).2
    rw [seek, dif_pos hi', hbec.kind, if_neg hk, ρ.renumbers.next_eq hkeeps,
      ih (Tokens.settled_next hlt)]
  | case3 i hge =>
    rw [seek, dif_neg (Nat.not_lt.mpr (ρ.renumbers.size_le (Nat.le_of_not_lt hge)))]

theorem skipTo (kinds : List Kind) (hkinds : ∀ k ∈ kinds, k.isBody = false) :
    ρ.Carries Eq (skipTo kinds) (skipTo kinds) := by
  refine reading (placed fun i hi => ?_)
  have hsought := settled_seek kinds hi
  rw [seek_eq ρ kinds hkinds hi]
  refine (move hsought).next fun _ => reading ?_
  have hsize : ts'.size ≤ ρ.number (seek ts kinds i) ↔ ts.size ≤ seek ts kinds i := by
    rw [← Nat.not_lt, ← Nat.not_lt, ρ.renumbers.lt_size_iff (ρ.keeps_of_settled hsought)]
  split
  · rename_i hend
    rw [if_pos (hsize.mpr hend)]
    exact throw_nowhere _
  · rename_i hmore
    rw [if_neg (mt hsize.mp hmore)]
    exact .pure rfl

theorem note {x y : Item} (h : ρ.ItemBecomes x y) : ρ.Carries Eq (note x) (note y) :=
  fun _ _ hpq => .ok rfl (hpq.note h)

theorem meet {v v' : Visit} (h : v.Becomes ρ.number ρ.related v') : ρ.Carries Eq (meet v) (meet v') :=
  note (.visit h)

theorem meetWith {visit visit' : DocComment → Visit} {c c' : Option DocComment}
    (h : ∀ d d', ρ.related d d' → (visit d).Becomes ρ.number ρ.related (visit' d'))
    (hc : Option.Rel ρ.related c c') : ρ.Carries Eq (meetWith visit c) (meetWith visit' c') := by
  cases hc with
  | none => exact .pure rfl
  | some hd => exact meet (h _ _ hd)

theorem within (s : Scope) {stop : Nat} (hstop : stop < ts.size)
    (hkeeps : KeepsPlace ρ.number stop) :
    ρ.Carries Eq (within s stop) (within (s.renumber ρ.number) (ρ.number stop)) :=
  placed fun _ hi => (note (.region s hi hkeeps)).next fun _ => jump_past hstop hkeeps

theorem enter (s : Scope) (r : Region) (hr : ∀ i ∈ r.closer, KeepsPlace ρ.number i) :
    ρ.Carries ρ.Scoped (enter s r) (enter (s.renumber ρ.number) (r.renumber ρ.number)) := by
  have hplace : ∀ e, s.enter r = .error e → ∀ i ∈ e.place, KeepsPlace ρ.number i := by
    intro e he
    unfold Scope.enter at he
    split at he
    · cases he
    · cases he
      exact hr
  unfold Step.enter
  rw [Scope.enter_renumber]
  cases he : s.enter r with
  | error e => exact throw (hplace e he)
  | ok inner => exact .pure rfl

end Carries
end Renumbering
end Outline
end PhpDoc
