import PhpDoc.Proofs.Yields
import Mathlib.Data.List.Forall2
/-!
Two readings in step. Where two steps both succeed on the same lexemes, they leave the same lexemes
and note the same words, and their values are related.
-/
namespace PhpDoc.Parse
variable {α β : Type} {L : Lexeme → Prop} {P : α → Prop} {R R' : α → α → Prop}
  {S : β → β → Prop} {p q : Parse α}

/-- Before lexemes with a property, two steps that both succeed yield related values and leave the
same reader, with an end of the lexemes ahead. -/
def InStep (L : Lexeme → Prop) (p q : Parse α) (R : α → α → Prop) : Prop :=
  ∀ s a b t u, (∀ l ∈ s.rest, L l) → p s = .ok (a, t) → q s = .ok (b, u) →
    R a b ∧ u = t ∧ t.rest <:+ s.rest

namespace InStep

theorem mono (h : InStep L p q R) (hR : ∀ a b, R a b → R' a b) : InStep L p q R' := by
  intro s a b t u hL hp hq
  obtain ⟨hab, hrest⟩ := h s a b t u hL hp hq
  exact ⟨hR a b hab, hrest⟩

/-- What the first step yields by itself can be added. -/
theorem yielding (h : InStep L p q R) (hp : Yields L p P) :
    InStep L p q fun a b => R a b ∧ P a := by
  intro s a b t u hL ha hb
  obtain ⟨hab, hrest⟩ := h s a b t u hL ha hb
  exact ⟨⟨hab, (hp s a t hL ha).1⟩, hrest⟩

theorem bind {f g : α → Parse β} (h : InStep L p q R)
    (hf : ∀ a b, R a b → InStep L (f a) (g b) S) : InStep L (p >>= f) (q >>= g) S := by
  intro s a b t u hL hp hq
  obtain ⟨a₁, s₁, hp₁, hp₂⟩ := bind_eq_ok.mp hp
  obtain ⟨b₁, s₂, hq₁, hq₂⟩ := bind_eq_ok.mp hq
  obtain ⟨hab, rfl, hs⟩ := h s a₁ b₁ s₁ s₂ hL hp₁ hq₁
  obtain ⟨hS, hu, ht⟩ := hf a₁ b₁ hab s₂ a b t u (fun l hl => hL l (hs.subset hl)) hp₂ hq₂
  exact ⟨hS, hu, ht.trans hs⟩

/-- The values of the first steps do not matter. -/
theorem next {f g : α → Parse β} (h : InStep L p q R) (hf : ∀ a b, InStep L (f a) (g b) S) :
    InStep L (p >>= f) (q >>= g) S :=
  h.bind fun a b _ => hf a b

end InStep

/-- A step is in step with itself. -/
theorem Yields.inStep (h : Yields L p P) : InStep L p p Eq := by
  intro s a b t u hL ha hb
  obtain ⟨rfl, rfl⟩ := Prod.mk.inj (Except.ok.inj (ha.symm.trans hb))
  exact ⟨rfl, rfl, (h s a t hL ha).2⟩

/-- Two readings that begin with the same step. -/
theorem Yields.then {f g : α → Parse β} (h : Yields L p P)
    (hf : ∀ a, InStep L (f a) (g a) S) : InStep L (p >>= f) (p >>= g) S :=
  h.inStep.bind fun a _ hab => hab ▸ hf a

theorem inStep_pure {a b : α} (h : R a b) : InStep L (pure a) (pure b) R := by
  intro s a' b' t u _ ha hb
  obtain ⟨rfl, rfl⟩ := pure_eq_ok.mp ha
  obtain ⟨rfl, rfl⟩ := pure_eq_ok.mp hb
  exact ⟨h, rfl, List.suffix_rfl⟩

/-- A step that fails on the left is in step with any other. -/
theorem inStep_of_fails (h : ∀ s r, p s ≠ .ok r) : InStep L p q R :=
  fun s a _ t _ _ ha _ => absurd ha (h s (a, t))

theorem inStep_of_fails_right (h : ∀ s r, q s ≠ .ok r) : InStep L p q R :=
  fun s _ b _ u _ _ hb => absurd hb (h s (b, u))

theorem fail_bind_ne_ok {f : β → Parse α} {s : Reader} {r : α × Reader} : (fail >>= f) s ≠ .ok r :=
  fun h => have ⟨_, _, hf, _⟩ := bind_eq_ok.mp h
  fail_ne_ok hf

theorem inStep_ite {c : Prop} [Decidable c] {p' q' : Parse α} (h : InStep L p q R)
    (h' : InStep L p' q' R) : InStep L (if c then p else p') (if c then q else q') R := by
  split
  · exact h
  · exact h'

/-- Two readings that go on under conditions of their own, and fail otherwise. -/
theorem inStep_guard {c c' : Prop} [Decidable c] [Decidable c'] {p' q' : Parse α}
    (h : InStep L p q R) (hp : ∀ s r, p' s ≠ .ok r) (hq : ∀ s r, q' s ≠ .ok r) :
    InStep L (if c then p else p') (if c' then q else q') R := by
  split
  · split
    · exact h
    · exact inStep_of_fails_right hq
  · exact inStep_of_fails hp

def Items (R : α → α → Prop) (as bs : List α) : Prop :=
  as ≠ [] ∧ List.Forall₂ R as bs

theorem inStep_itemsTo {more : Parse Bool} (h : InStep L p q R) (hm : Yields L more fun _ => True)
    (bound : Nat) : InStep L (itemsTo p more bound) (itemsTo q more bound) (Items R) := by
  induction bound with
  | zero => exact inStep_of_fails fun _ _ => fail_ne_ok
  | succ bound ih =>
    refine h.bind fun a b hab => hm.then fun _ => inStep_ite ?_ ?_
    · exact yields_skip.then fun _ => ih.bind fun as bs hs =>
        inStep_pure ⟨List.cons_ne_nil a as, .cons hab hs.2⟩
    · exact inStep_pure ⟨List.cons_ne_nil a [], .cons hab .nil⟩

theorem inStep_items {more : Parse Bool} (h : InStep L p q R) (hm : Yields L more fun _ => True) :
    InStep L (items p more) (items q more) (Items R) :=
  yields_get.then fun _ => inStep_itemsTo h hm _

theorem Items.exists_right {as bs : List α} (hi : Items R as bs) : ∀ a ∈ as, ∃ b ∈ bs, R a b := by
  obtain ⟨-, hr⟩ := hi
  induction hr with
  | nil => simp
  | cons hab _ ih =>
    rintro a (_ | ⟨_, ha⟩)
    · exact ⟨_, List.mem_cons_self, hab⟩
    · obtain ⟨b, hb, hr⟩ := ih a ha
      exact ⟨b, List.mem_cons_of_mem _ hb, hr⟩

theorem Items.flip {as bs : List α} (hi : Items R as bs) : Items (flip R) bs as := by
  refine ⟨?_, hi.2.flip⟩
  rintro rfl
  exact hi.1 (List.forall₂_nil_right_iff.mp hi.2)

theorem Items.exists_left {as bs : List α} (hi : Items R as bs) : ∀ b ∈ bs, ∃ a ∈ as, R a b :=
  hi.flip.exists_right

end PhpDoc.Parse
