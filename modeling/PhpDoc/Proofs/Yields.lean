import PhpDoc.Type.Grammar
import Mathlib.Tactic.Common
/-!
What reading steps yield. A step reads lexemes from the front: what it leaves is an end of what it
found, so a property of all lexemes ahead holds throughout.
-/
namespace PhpDoc.Parse
variable {α β : Type} {L : Lexeme → Prop} {P Q : α → Prop} {R : β → Prop}

theorem bind_eq_ok {p : Parse α} {f : α → Parse β} {s : Reader} {r : β × Reader} :
    (p >>= f) s = .ok r ↔ ∃ a t, p s = .ok (a, t) ∧ f a t = .ok r := by
  change (Except.bind (p s) fun x => f x.1 x.2) = .ok r ↔ _
  cases p s with
  | error e => simp [Except.bind]
  | ok x =>
    constructor
    · exact fun h => ⟨x.1, x.2, rfl, h⟩
    · rintro ⟨a, t, he, h⟩
      cases he
      exact h

theorem pure_eq_ok {a b : α} {s t : Reader} :
    (pure a : Parse α) s = .ok (b, t) ↔ a = b ∧ s = t := by
  change Except.ok (a, s) = Except.ok (b, t) ↔ _
  simp

theorem fail_ne_ok {s : Reader} {r : α × Reader} : (fail : Parse α) s ≠ .ok r := by
  change Except.error _ ≠ Except.ok r
  simp

/-- Before lexemes with a property, a step that succeeds yields a value with a property, and leaves an
end of the lexemes ahead. -/
def Yields (L : Lexeme → Prop) (p : Parse α) (P : α → Prop) : Prop :=
  ∀ s a t, (∀ l ∈ s.rest, L l) → p s = .ok (a, t) → P a ∧ t.rest <:+ s.rest

theorem Yields.bind {p : Parse α} {f : α → Parse β} (h : Yields L p P)
    (hf : ∀ a, P a → Yields L (f a) R) : Yields L (p >>= f) R := by
  intro s b u hL hp
  obtain ⟨a, t, h₁, h₂⟩ := bind_eq_ok.mp hp
  obtain ⟨ha, ht⟩ := h s a t hL h₁
  obtain ⟨hb, hu⟩ := hf a ha t b u (fun l hl => hL l (ht.subset hl)) h₂
  exact ⟨hb, hu.trans ht⟩

/-- The value of the first step does not matter to the second one. -/
theorem Yields.next {p : Parse α} {f : α → Parse β} (h : Yields L p P)
    (hf : ∀ a, Yields L (f a) R) : Yields L (p >>= f) R :=
  h.bind fun a _ => hf a

theorem yields_pure {a : α} (h : P a) : Yields L (pure a) P := by
  intro s b t _ hp
  obtain ⟨rfl, rfl⟩ := pure_eq_ok.mp hp
  exact ⟨h, List.suffix_rfl⟩

theorem yields_fail : Yields L (fail : Parse α) P := by
  intro s b t _ hp
  exact (fail_ne_ok hp).elim

theorem yields_fail_bind {f : β → Parse α} : Yields L (fail >>= f) P := by
  intro s a t _ hp
  obtain ⟨b, u, h₁, -⟩ := bind_eq_ok.mp hp
  exact (fail_ne_ok h₁).elim

theorem yields_ite {c : Prop} [Decidable c] {p q : Parse α} (hp : Yields L p P)
    (hq : Yields L q P) : Yields L (if c then p else q) P := by
  split
  · exact hp
  · exact hq

theorem yields_get : Yields L get fun s : Reader => ∀ l ∈ s.rest, L l := by
  intro s a t hL hp
  change Except.ok (s, s) = Except.ok (a, t) at hp
  simp only [Except.ok.injEq, Prod.mk.injEq] at hp
  obtain ⟨rfl, rfl⟩ := hp
  exact ⟨hL, List.suffix_rfl⟩

theorem yields_next? : Yields L next? fun o => ∀ l ∈ o, L l := by
  intro s a t hL hp
  simp only [next?, Except.ok.injEq, Prod.mk.injEq] at hp
  obtain ⟨rfl, rfl⟩ := hp
  exact ⟨fun l hl => hL l (List.mem_of_mem_head? hl), List.suffix_rfl⟩

theorem yields_seesAt (n : Nat) (text : String) : Yields L (seesAt n text) fun _ => True := by
  intro s a t _ hp
  simp only [seesAt, Except.ok.injEq, Prod.mk.injEq] at hp
  obtain ⟨-, rfl⟩ := hp
  exact ⟨trivial, List.suffix_rfl⟩

theorem yields_sees (text : String) : Yields L (sees text) fun _ => True :=
  yields_seesAt 0 text

theorem yields_take : Yields L take L := by
  intro s a t hL hp
  unfold take at hp
  cases hr : s.rest with
  | nil => simp [hr] at hp
  | cons l rest =>
    simp only [hr, Except.ok.injEq, Prod.mk.injEq] at hp
    obtain ⟨rfl, rfl⟩ := hp
    exact ⟨hL l (by simp [hr]), List.suffix_cons l rest⟩

theorem yields_skip : Yields L skip fun _ => True :=
  yields_take.next fun _ => yields_pure trivial

theorem yields_expect (text : String) : Yields L (expect text) fun _ => True :=
  (yields_sees text).next fun _ => yields_ite yields_skip yields_fail

theorem yields_accept (text : String) : Yields L (accept text) fun _ => True :=
  (yields_sees text).next fun _ => yields_ite yields_skip (yields_pure trivial)

theorem yields_word : Yields L word fun _ => True := by
  intro s a t _ hp
  unfold word at hp
  cases hr : s.rest with
  | nil => simp [hr] at hp
  | cons l rest =>
    simp only [hr, Except.ok.injEq, Prod.mk.injEq] at hp
    obtain ⟨-, rfl⟩ := hp
    exact ⟨trivial, List.suffix_cons l rest⟩

def YieldsAt (L : Lexeme → Prop) (l : Lexeme) (p : Parse α) (P : α → Prop) : Prop :=
  ∀ s a t, (∀ l ∈ s.rest, L l) → s.rest.head? = some l → p s = .ok (a, t) → P a ∧ t.rest <:+ s.rest

theorem Yields.at {p : Parse α} (h : Yields L p P) (l : Lexeme) : YieldsAt L l p P :=
  fun s a t hL _ hp => h s a t hL hp

theorem YieldsAt.bind {l : Lexeme} {p : Parse α} {f : α → Parse β} (h : YieldsAt L l p P)
    (hf : ∀ a, P a → Yields L (f a) R) : YieldsAt L l (p >>= f) R := by
  intro s b u hL hl hp
  obtain ⟨a, t, h₁, h₂⟩ := bind_eq_ok.mp hp
  obtain ⟨ha, ht⟩ := h s a t hL hl h₁
  obtain ⟨hb, hu⟩ := hf a ha t b u (fun l hl => hL l (ht.subset hl)) h₂
  exact ⟨hb, hu.trans ht⟩

theorem yieldsAt_take (l : Lexeme) : YieldsAt L l take (· = l) := by
  intro s a t _ hl hp
  unfold take at hp
  cases hr : s.rest with
  | nil => simp [hr] at hp
  | cons k rest =>
    simp only [hr, Except.ok.injEq, Prod.mk.injEq] at hp
    obtain ⟨rfl, rfl⟩ := hp
    exact ⟨by simpa [hr] using hl, List.suffix_cons k rest⟩

/-- A step that looks at the next lexeme first. -/
theorem yields_next?_bind {f : Option Lexeme → Parse β} (hn : Yields L (f none) R)
    (hs : ∀ l, L l → YieldsAt L l (f (some l)) R) : Yields L (next? >>= f) R := by
  intro s b t hL hp
  obtain ⟨o, u, h₁, h₂⟩ := bind_eq_ok.mp hp
  simp only [next?, Except.ok.injEq, Prod.mk.injEq] at h₁
  obtain ⟨rfl, rfl⟩ := h₁
  cases hh : s.rest.head? with
  | none => exact hn s b t hL (hh ▸ h₂)
  | some l =>
    have hl : L l := hL l (List.mem_of_mem_head? hh)
    exact hs l hl s b t hL hh (hh ▸ h₂)

theorem yields_itemsTo {item : Parse α} {more : Parse Bool} (hi : Yields L item P)
    (hm : Yields L more fun _ => True) (bound : Nat) :
    Yields L (itemsTo item more bound) fun as => as ≠ [] ∧ ∀ a ∈ as, P a := by
  induction bound with
  | zero => exact yields_fail
  | succ bound ih =>
    refine hi.bind fun a ha => hm.next fun _ => yields_ite ?_ ?_
    · exact yields_skip.next fun _ => ih.bind fun as has => yields_pure <| by
        simpa [ha] using has.2
    · exact yields_pure (by simpa using ha)

theorem yields_items {item : Parse α} {more : Parse Bool} (hi : Yields L item P)
    (hm : Yields L more fun _ => True) :
    Yields L (items item more) fun as => as ≠ [] ∧ ∀ a ∈ as, P a :=
  yields_get.next fun _ => yields_itemsTo hi hm _

end PhpDoc.Parse
