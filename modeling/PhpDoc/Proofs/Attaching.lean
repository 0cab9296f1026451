import PhpDoc.Proofs.Detaching
import PhpDoc.Proofs.RespelledGrammar
/-!
Reading lexemes before others. What a step reads of lexemes that stand alone it reads alike where
lexemes follow with which no type goes on: it may look past what it reads, but what it finds there
adds nothing.
-/
namespace PhpDoc

def Lexeme.relocated (place : Nat → Nat) (l : Lexeme) : Lexeme :=
  { l with start := place l.start }

namespace Parse
open Lexeme (relocated)
variable {α β γ : Type} {place : Nat → Nat} {i j : Nat} {ahead ls ms : List Lexeme}
  {P Q : List Lexeme → Prop} {p p' q q' : Parse α} {f u : α → Parse β} {s t : Reader} {a : α}
  {x : String}

def goingOn : List String :=
  ["<", "\x7b", "\x7d", ",", "(", "[", "]", "|", "?", ":", "::", "*"]

structure Stops (ahead : List Lexeme) : Prop where
  sign : ∀ l ∈ ahead.head?, l.text ∉ goingOn
  name : ∀ l ∈ ahead.head?, ¬IsAbsolute l.text
  joins : Grammar.joinsAhead ⟨ahead, []⟩ = false

def Unfinished (ls : List Lexeme) : Prop :=
  (∃ o l, ls = [o, l] ∧ o.text = "(" ∧ IsAbsolute l.text) ∨ ∃ o, ls = [o] ∧ o.text = "&"

def Settled (ahead ls : List Lexeme) : Prop :=
  ahead ≠ [] → ¬Unfinished ls

/-- What one step reads of lexemes that stand alone, and leaves with a property, the other step
reads of these lexemes at other places and before the lexemes `ahead`. -/
def Attaches (place : Nat → Nat) (ahead : List Lexeme) (P : List Lexeme → Prop) (p p' : Parse α) :
    Prop :=
  ∀ ls ws a ms ws', p ⟨ls, ws⟩ = .ok (a, ⟨ms, ws'⟩) → P ms →
    Reads p' (ls.map (relocated place) ++ ahead) a (ms.map (relocated place) ++ ahead)

def Spares (p : Parse α) : Prop :=
  ∀ s a t, Unfinished s.rest → p s = .ok (a, t) → Unfinished t.rest

def Needs (p : Parse α) : Prop :=
  ∀ ws r, p ⟨[], ws⟩ ≠ .ok r

theorem stops_cons {l : Lexeme} (hs : l.text ∉ goingOn) (hn : ¬IsAbsolute l.text)
    (hj : Grammar.joinsAhead ⟨l :: ls, []⟩ = false) : Stops (l :: ls) :=
  ⟨by simpa using hs, by simpa using hn, hj⟩

theorem settled_nil : Settled ahead [] := by
  rintro - (⟨_, _, hnil, -⟩ | ⟨_, hnil, -⟩)
  all_goals cases hnil

theorem spares_pure (a : α) : Spares (pure a) := by
  intro s b t hs h
  obtain ⟨-, rfl⟩ := pure_eq_ok.mp h
  exact hs

theorem spares_fail : Spares (fail : Parse α) :=
  fun _ _ _ _ h => (fail_ne_ok h).elim

theorem spares_fail_bind {f : β → Parse α} : Spares (fail >>= f) := by
  intro s a t _ h
  obtain ⟨b, v, h₁, -⟩ := bind_eq_ok.mp h
  exact (fail_ne_ok h₁).elim

theorem Spares.ite {c : Prop} [Decidable c] (hp : Spares p) (hq : Spares q) :
    Spares (if c then p else q) := by
  split
  · exact hp
  · exact hq

theorem Unfinished.exists_head (h : Unfinished ls) :
    ∃ o rest, ls = o :: rest ∧ o.text ∈ ["(", "&"] := by
  obtain ⟨o, l, rfl, ho, -⟩ | ⟨o, rfl, ho⟩ := h
  · exact ⟨o, [l], rfl, by simp [ho]⟩
  · exact ⟨o, [], rfl, by simp [ho]⟩

theorem Unfinished.shows (h : Unfinished s.rest) (hx : x ∉ ["(", "&"]) : s.shows 0 x = false := by
  obtain ⟨o, rest, hr, ho⟩ := h.exists_head
  have hne : o.text ≠ x := fun he => hx (he ▸ ho)
  simp [Reader.shows, hr, hne]

theorem spares_sees (hx : x ∉ ["(", "&"]) (hq : Spares q) :
    Spares (do if ← sees x then p else q) := by
  intro s a t hs h
  have hlook : (do if ← sees x then p else q) s = (if s.shows 0 x = true then p else q) s := rfl
  rw [hlook, hs.shows hx] at h
  exact hq s a t hs h

theorem spares_expect (hx : x ∉ ["(", "&"]) : Spares (expect x) :=
  spares_sees hx spares_fail

theorem expect_ne_ok {l : Lexeme} {ws : List Nat} {r : Unit × Reader} (hx : l.text ≠ x) :
    expect x ⟨l :: ls, ws⟩ ≠ .ok r := by
  have hlook : expect x ⟨l :: ls, ws⟩ =
      (if (l.text == x) = true then skip else fail) ⟨l :: ls, ws⟩ := rfl
  rw [hlook, beq_false_of_ne hx]
  exact fail_ne_ok

/-- A step that begins with another sign cannot go on. -/
theorem spares_expect_bind {f : Unit → Parse β} (hx : x ∉ ["(", "&"]) :
    Spares (expect x >>= f) := by
  rintro ⟨rest, ws⟩ b t hs h
  obtain ⟨o, rest, rfl, ho⟩ := hs.exists_head
  obtain ⟨_, _, h₁, -⟩ := bind_eq_ok.mp h
  exact (expect_ne_ok (fun he : o.text = x => hx (he ▸ ho)) h₁).elim

theorem Eats.needs (h : Eats 1 p) : Needs p := by
  intro ws r hp
  obtain ⟨read, hr, hlen⟩ := h _ r.1 r.2 hp
  have hnil : read = [] := (List.append_eq_nil_iff.mp hr.symm).1
  simp [hnil] at hlen

theorem Needs.bind (hp : Needs p) : Needs (p >>= f) := by
  intro ws r h
  obtain ⟨a, v, h₁, -⟩ := bind_eq_ok.mp h
  exact hp ws _ h₁

theorem needs_fail : Needs (fail : Parse α) :=
  fun _ _ => fail_ne_ok

theorem needs_expect : Needs (expect x) :=
  fun ws _ => fail_ne_ok (s := ⟨[], ws⟩)

theorem Needs.accept_bind {f : Unit → Parse β} (hf : Needs (f ())) : Needs (accept x >>= f) :=
  hf

theorem Attaches.mono (h : Attaches place ahead P p p') (hPQ : ∀ ms, Q ms → P ms) :
    Attaches place ahead Q p p' :=
  fun ls ws a ms ws' hp hms => h ls ws a ms ws' hp (hPQ ms hms)

/-- A step after one that leaves what is needed. -/
theorem Attaches.seq (hp : Attaches place ahead Q p p')
    (hf : ∀ a, Attaches place ahead P (f a) (u a))
    (hs : ∀ a s b t, f a s = .ok (b, t) → P t.rest → Q s.rest) :
    Attaches place ahead P (p >>= f) (p' >>= u) := by
  intro ls ws b ms ws' h hms
  obtain ⟨a, ⟨rest, words⟩, h₁, h₂⟩ := bind_eq_ok.mp h
  exact (hp ls ws a rest words h₁ (hs a _ b _ h₂ hms)).bind (hf a rest words b ms ws' h₂ hms)

/-- A step after one that is read alike whatever it leaves. -/
theorem Attaches.next (hp : Attaches place ahead (fun _ => True) p p')
    (hf : ∀ a, Attaches place ahead P (f a) (u a)) :
    Attaches place ahead P (p >>= f) (p' >>= u) :=
  hp.seq hf fun _ _ _ _ _ _ => trivial

theorem Spares.settled (hp : Spares p) (h : p s = .ok (a, t)) (ht : Settled ahead t.rest) :
    Settled ahead s.rest :=
  fun hne hs => ht hne (hp s a t hs h)

/-- A step after a type. -/
theorem Attaches.bind (hp : Attaches place ahead (Settled ahead) p p')
    (hf : ∀ a, Attaches place ahead (Settled ahead) (f a) (u a)) (hs : ∀ a, Spares (f a)) :
    Attaches place ahead (Settled ahead) (p >>= f) (p' >>= u) :=
  hp.seq hf fun a _ _ _ h ht => (hs a).settled h ht

theorem attaches_pure (a : α) : Attaches place ahead P (pure a) (pure a) := by
  intro ls ws b ms ws' h _
  obtain ⟨rfl, hs⟩ := pure_eq_ok.mp h
  rw [Reader.mk.injEq] at hs
  obtain ⟨rfl, rfl⟩ := hs
  exact reads_pure

theorem attaches_fail : Attaches place ahead P fail p' :=
  fun _ _ _ _ _ h => (fail_ne_ok h).elim

theorem attaches_fail_bind {f : β → Parse α} : Attaches place ahead P (fail >>= f) p' := by
  intro ls ws a ms ws' h
  obtain ⟨b, v, h₁, -⟩ := bind_eq_ok.mp h
  exact (fail_ne_ok h₁).elim

theorem Attaches.ite {c : Prop} [Decidable c] (hp : Attaches place ahead P p p')
    (hq : Attaches place ahead P q q') :
    Attaches place ahead P (if c then p else q) (if c then p' else q') := by
  split
  · exact hp
  · exact hq

/-- A step that begins with a lexeme, whose place does not matter. -/
theorem attaches_take_bind {f u : Lexeme → Parse β} (hf : ∀ l, Attaches place ahead P (f l) (u l))
    (hg : ∀ l, u (relocated place l) = u l) : Attaches place ahead P (take >>= f) (take >>= u) := by
  intro ls ws b ms ws' h hms
  obtain ⟨l, ⟨rest, words⟩, h₁, h₂⟩ := bind_eq_ok.mp h
  obtain ⟨hr, hw⟩ := take_eq_ok h₁
  simp only at hr hw
  subst hr hw
  rw [List.map_cons, List.cons_append]
  refine reads_take.bind ?_
  rw [hg]
  exact hf l rest words b ms ws' h₂ hms

theorem attaches_skip : Attaches place ahead P skip skip :=
  attaches_take_bind (fun _ => attaches_pure ()) fun _ => rfl

theorem attaches_word : Attaches place ahead P word word := by
  intro ls ws w ms ws' h _
  obtain ⟨l, hr, rfl, -⟩ := word_eq_ok h
  simp only at hr
  subst hr
  exact reads_word

/-- What `d` tells of `i` lexemes or more that stand alone, it tells of them before others. -/
def Blind (place : Nat → Nat) (ahead : List Lexeme) (i : Nat) (d : Reader → γ) : Prop :=
  ∀ ls ws ws', i ≤ ls.length → d ⟨ls.map (relocated place) ++ ahead, ws'⟩ = d ⟨ls, ws⟩

/-- A look at a lexeme that is there. -/
theorem blind_at (i : Nat) {f : Option Lexeme → γ}
    (hf : ∀ l, f (some (relocated place l)) = f (some l)) :
    Blind place ahead (i + 1) fun s => f s.rest[i]? := by
  intro ls ws ws' hi
  have hlen : i < (ls.map (relocated place)).length := by
    rw [List.length_map]
    exact hi
  simp only [List.getElem?_append_left hlen, List.getElem?_map, List.getElem?_eq_getElem hi,
    Option.map_some, hf]

theorem blind_head {f : Option Lexeme → γ} (hf : ∀ l, f (some (relocated place l)) = f (some l)) :
    Blind place ahead 1 fun s => f s.rest.head? := by
  simp only [List.head?_eq_getElem?]
  exact blind_at 0 hf

theorem blind_shows (i : Nat) : Blind place ahead (i + 1) (Reader.shows i x) :=
  blind_at i (f := fun o => o.any fun l => l.text == x) fun _ => rfl

/-- A look for a sign with which a type goes on takes other lexemes for the end. -/
theorem Stops.blind_shows (hc : Stops ahead) (i : Nat) (hx : x ∈ goingOn) :
    Blind place ahead i (Reader.shows i x) := by
  intro ls ws ws' hl
  by_cases hi : i < ls.length
  · exact Parse.blind_shows i ls ws ws' hi
  · obtain rfl : i = ls.length := by omega
    have hahead : Reader.shows 0 x ⟨ahead, ws'⟩ = false := by
      cases ahead with
      | nil => rfl
      | cons l rest =>
        have hne : l.text ≠ x := fun he => hc.sign l rfl (he ▸ hx)
        simp [Reader.shows, hne]
    simpa [Reader.shows, List.getElem?_append_right] using hahead

theorem Blind.le {d : Reader → γ} (hd : Blind place ahead i d) (hj : i ≤ j) :
    Blind place ahead j d :=
  fun ls ws ws' hl => hd ls ws ws' (Nat.le_trans hj hl)

/-- A look further on, if so much has been seen that there are lexemes before it. -/
theorem Blind.and {d e : Reader → Bool} (hd : Blind place ahead i d) (he : Blind place ahead j e)
    (hlen : ∀ ls ws, d ⟨ls, ws⟩ = true → j ≤ ls.length) :
    Blind place ahead i fun s => d s && e s := by
  intro ls ws ws' hl
  simp only [hd ls ws ws' hl]
  cases hds : d ⟨ls, ws⟩ with
  | false => rfl
  | true => exact he ls ws ws' (hlen ls ws hds)

theorem lt_length_of_shows {ws : List Nat} (h : Reader.shows i x ⟨ls, ws⟩ = true) :
    i < ls.length := by
  by_contra hi
  simp [Reader.shows, List.getElem?_eq_none (Nat.le_of_not_lt hi)] at h

/-- A step that goes on by what it sees ahead. If there are too few lexemes to see anything, it does
not leave what is needed. -/
theorem Blind.attaches_ite {d : Reader → Bool} (hd : Blind place ahead i d)
    (hp : Attaches place ahead P p p') (hq : Attaches place ahead P q q')
    (hfew : ∀ ls ws, ls.length < i → d ⟨ls, ws⟩ = false)
    (hleft : ∀ ls ws a ms ws', ls.length < i → q ⟨ls, ws⟩ = .ok (a, ⟨ms, ws'⟩) → ¬P ms) :
    Attaches place ahead P (fun s => (if d s = true then p else q) s)
      (fun s => (if d s = true then p' else q') s) := by
  intro ls ws a ms ws' h hms words
  by_cases hl : ls.length < i
  · simp only [hfew ls ws hl, Bool.false_eq_true, if_false] at h
    exact (hleft ls ws a ms ws' hl h hms).elim
  · simp only [hd ls ws words (Nat.le_of_not_lt hl)]
    exact hp.ite hq ls ws a ms ws' h hms words

/-- A step that looks at a lexeme, and cannot go on if there is none to look at. -/
theorem Blind.attaches_ite_needs {d : Reader → Bool} (hd : Blind place ahead 1 d)
    (hp : Attaches place ahead P p p') (hq : Attaches place ahead P q q')
    (hnil : ∀ ws, d ⟨[], ws⟩ = false) (hn : Needs q) :
    Attaches place ahead P (fun s => (if d s = true then p else q) s)
      (fun s => (if d s = true then p' else q') s) := by
  have hempty : ∀ {ls : List Lexeme}, ls.length < 1 → ls = [] := fun hl =>
    List.length_eq_zero_iff.mp (Nat.lt_one_iff.mp hl)
  refine hd.attaches_ite hp hq (fun ls ws hl => ?_) fun ls ws a ms ws' hl h _ => ?_
  · exact hempty hl ▸ hnil ws
  · obtain rfl := hempty hl
    exact hn ws _ h

theorem attaches_sees (hc : Stops ahead) (hx : x ∈ goingOn) (hp : Attaches place ahead P p p')
    (hq : Attaches place ahead P q q') :
    Attaches place ahead P (do if ← sees x then p else q) (do if ← sees x then p' else q') :=
  (hc.blind_shows 0 hx).attaches_ite hp hq (by simp) (by simp)

theorem attaches_accept (hc : Stops ahead) (hx : x ∈ goingOn) :
    Attaches place ahead P (accept x) (accept x) :=
  attaches_sees hc hx attaches_skip (attaches_pure ())

/-- A step that looks for a sign of any kind, and cannot go on where nothing is ahead. -/
theorem attaches_sees_bind {f u : Bool → Parse α}
    (hf : ∀ b, Attaches place ahead P (f b) (u b)) (hn : Needs (f false)) :
    Attaches place ahead P (sees x >>= f) (sees x >>= u) := by
  intro ls ws a ms ws' h hms
  cases ls with
  | nil => exact (hn ws _ h).elim
  | cons l ls => exact fun words => hf (l.text == x) (l :: ls) ws a ms ws' h hms words

theorem attaches_expect : Attaches place ahead P (expect x) (expect x) :=
  attaches_sees_bind (fun _ => attaches_skip.ite attaches_fail) needs_fail

theorem attaches_accept_bind {f u : Unit → Parse α}
    (hf : Attaches place ahead P (f ()) (u ())) (hn : Needs (f ())) :
    Attaches place ahead P (accept x >>= f) (accept x >>= u) := by
  unfold accept
  rw [bind_assoc, bind_assoc]
  refine attaches_sees_bind (fun b => ?_) hn
  cases b with
  | false => exact hf
  | true => exact attaches_skip.next fun _ => hf

/-- A step that looks at the next lexeme first, but not at its place. -/
theorem attaches_next?_bind {f u : Option Lexeme → Parse β}
    (hs : ∀ l, Attaches place ahead P (f (some l)) (u (some l))) (hn : Needs (f none))
    (hg : ∀ l, u (some (relocated place l)) = u (some l)) :
    Attaches place ahead P (next? >>= f) (next? >>= u) := by
  intro ls ws b ms ws' h hms
  cases ls with
  | nil => exact (hn ws _ h).elim
  | cons l ls =>
    refine reads_next?.bind ?_
    rw [List.map_cons, List.cons_append, List.head?_cons, hg]
    exact hs l (l :: ls) ws b ms ws' h hms

/-- Rounds may be more than are needed. -/
theorem attaches_rounds {f u : Nat → Parse α} (hzero : f 0 = fail)
    (hstep : ∀ b b', Attaches place ahead P (f b) (u b') →
      Attaches place ahead P (f (b + 1)) (u (b' + 1)))
    {b b' : Nat} (hb : b ≤ b') : Attaches place ahead P (f b) (u b') := by
  induction b generalizing b' with
  | zero =>
    rw [hzero]
    exact attaches_fail
  | succ b ih =>
    obtain ⟨b', rfl⟩ : ∃ k, b' = k + 1 := ⟨b' - 1, by omega⟩
    exact hstep b b' (ih (by omega))

/-- A step that counts the lexemes ahead, of which there are more before others. -/
theorem attaches_get_bind {f u : Nat → Parse β}
    (hf : ∀ b b', b ≤ b' → Attaches place ahead P (f b) (u b')) :
    Attaches place ahead P (get >>= fun s : Reader => f s.rest.length)
      (get >>= fun s : Reader => u s.rest.length) := by
  intro ls ws b ms ws' h hms words
  have hle : ls.length ≤ (ls.map (relocated place) ++ ahead).length := by simp
  exact hf _ _ hle ls ws b ms ws' h hms words

theorem attaches_get_rounds {f u : Nat → Parse β} (hzero : f 0 = fail)
    (hstep : ∀ b b', Attaches place ahead P (f b) (u b') →
      Attaches place ahead P (f (b + 1)) (u (b' + 1))) :
    Attaches place ahead P (get >>= fun s : Reader => f (s.rest.length + 1))
      (get >>= fun s : Reader => u (s.rest.length + 1)) :=
  attaches_get_bind (f := fun m => f (m + 1)) (u := fun m => u (m + 1)) fun _ _ hb =>
    attaches_rounds hzero hstep (Nat.succ_le_succ hb)

def itemsAfter (p : Parse α) (more : Parse Bool) (bound : Nat) (a : α) : Parse (List α) := do
  if ← more then
    skip
    return a :: (← itemsTo p more bound)
  else return [a]

section
variable {more : Parse Bool} {d : Reader → Bool} (hmore : ∀ s, more s = .ok (d s, s))
  (hopen : ∀ s, Unfinished s.rest → d s = false)
include hmore

theorem itemsAfter_eq (bound : Nat) (a : α) : itemsAfter p more bound a = fun s =>
    (if d s = true then skip >>= fun _ => itemsTo p more bound >>= fun as => pure (a :: as)
    else pure [a] : Parse (List α)) s := by
  funext s
  rw [itemsAfter, bind_eq (hmore s)]

include hopen

theorem spares_itemsAfter (bound : Nat) (a : α) : Spares (itemsAfter p more bound a) := by
  intro s as t hs h
  rw [itemsAfter_eq hmore] at h
  simp only [hopen s hs, Bool.false_eq_true, if_false] at h
  exact spares_pure [a] s as t hs h

variable (hd : ∀ ls ws ws', Settled ahead ls →
  d ⟨ls.map (relocated place) ++ ahead, ws'⟩ = d ⟨ls, ws⟩)
include hd

theorem attaches_itemsAfter {b b' : Nat}
    (h : Attaches place ahead (Settled ahead) (itemsTo p more b) (itemsTo p' more b')) (a : α) :
    Attaches place ahead (Settled ahead) (itemsAfter p more b a) (itemsAfter p' more b' a) := by
  intro ls ws as ms ws' hread hms words
  have hls : Settled ahead ls := (spares_itemsAfter hmore hopen b a).settled hread hms
  rw [itemsAfter_eq hmore] at hread ⊢
  simp only [hd ls ws words hls]
  refine Attaches.ite (attaches_skip.next fun _ => ?_) (attaches_pure [a]) ls ws as ms ws' hread hms
    words
  exact h.bind (fun as => attaches_pure (a :: as)) fun as => spares_pure (a :: as)

/-- Items are read alike if `more` tells the same of settled lexemes before others, and sees no
separator where lexemes are unfinished. -/
theorem attaches_itemsTo (hi : Attaches place ahead (Settled ahead) p p') {b b' : Nat}
    (hb : b ≤ b') :
    Attaches place ahead (Settled ahead) (itemsTo p more b) (itemsTo p' more b') :=
  attaches_rounds (f := itemsTo p more) (u := itemsTo p' more) rfl
    (fun _ _ h =>
      hi.bind (attaches_itemsAfter hmore hopen hd h) (spares_itemsAfter hmore hopen _)) hb

theorem attaches_items (hi : Attaches place ahead (Settled ahead) p p') :
    Attaches place ahead (Settled ahead) (items p more) (items p' more) :=
  attaches_get_bind (f := fun n => itemsTo p more (n + 1)) (u := fun n => itemsTo p' more (n + 1))
    fun _ _ hb => attaches_itemsTo hmore hopen hd hi (Nat.succ_le_succ hb)

end

theorem attaches_items_sees (hc : Stops ahead) (hx : x ∈ goingOn) (hx' : x ∉ ["(", "&"])
    (hi : Attaches place ahead (Settled ahead) p p') :
    Attaches place ahead (Settled ahead) (items p (sees x)) (items p' (sees x)) :=
  attaches_items (fun _ => rfl) (fun _ hs => hs.shows hx')
    (fun ls ws ws' _ => hc.blind_shows 0 hx ls ws ws' (Nat.zero_le _)) hi

end Parse
end PhpDoc
