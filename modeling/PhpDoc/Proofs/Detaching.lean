import PhpDoc.Proofs.Respelling
/-!
Reading lexemes that stand alone. What a step reads before other lexemes it reads alike where nothing
follows: it may look past what it reads, but there it only finds that nothing more belongs to it.
-/
namespace PhpDoc

def Lexeme.respaced (g : Lexeme → Bool) (l : Lexeme) : Lexeme :=
  { l with spaced := g l }

namespace Parse
open Lexeme (respaced)
variable {α β γ : Type} {g : Lexeme → Bool} {ahead : List Lexeme} {i j m n : Nat}
  {p p' q q' : Parse α} {f u : α → Parse β} {s t : Reader} {a : α} {x : String}

def Eats (i : Nat) (p : Parse α) : Prop :=
  ∀ s a t, p s = .ok (a, t) → ∃ read, s.rest = read ++ t.rest ∧ i ≤ read.length

/-- One step reads at least `i` lexemes. If they are fewer than `n` and stand before the lexemes
`ahead`, the other step reads them alike where nothing follows. -/
structure Detaches (g : Lexeme → Bool) (ahead : List Lexeme) (i n : Nat) (p p' : Parse α) : Prop where
  eats : Eats i p
  alone : ∀ ls ws a ms ws', ls.length < n → p ⟨ls ++ ahead, ws⟩ = .ok (a, ⟨ms ++ ahead, ws'⟩) →
    p' ⟨ls.map (respaced g), ws⟩ = .ok (a, ⟨ms.map (respaced g), ws'⟩)

/-- What a step reads before others, it reads of the lexemes before them. -/
theorem Eats.split {ls ms : List Lexeme} {ws ws' : List Nat} (h : Eats i p)
    (hp : p ⟨ls ++ ahead, ws⟩ = .ok (a, ⟨ms ++ ahead, ws'⟩)) :
    ∃ read, ls = read ++ ms ∧ i ≤ read.length := by
  obtain ⟨read, hr, hi⟩ := h _ _ _ hp
  have hr : ls ++ ahead = read ++ (ms ++ ahead) := hr
  rw [← List.append_assoc] at hr
  exact ⟨read, List.append_cancel_right hr, hi⟩

theorem Eats.bind (hp : Eats i p) (hf : ∀ a, Eats j (f a)) : Eats (j + i) (p >>= f) := by
  intro s b t h
  obtain ⟨a, v, h₁, h₂⟩ := bind_eq_ok.mp h
  obtain ⟨read₁, hr₁, hi⟩ := hp s a v h₁
  obtain ⟨read₂, hr₂, hj⟩ := hf a v b t h₂
  refine ⟨read₁ ++ read₂, by rw [hr₁, hr₂, List.append_assoc], ?_⟩
  rw [List.length_append]
  omega

theorem Eats.le (h : Eats i p) (hj : j ≤ i) : Eats j p := by
  intro s a t hp
  obtain ⟨read, hr, hi⟩ := h s a t hp
  exact ⟨read, hr, Nat.le_trans hj hi⟩

theorem eats_fail : Eats i (fail : Parse α) :=
  fun _ _ _ h => (fail_ne_ok h).elim

theorem Detaches.le (h : Detaches g ahead i n p p') (hj : j ≤ i) (hm : m ≤ n) :
    Detaches g ahead j m p p' :=
  ⟨h.eats.le hj, fun ls ws a ms ws' hl => h.alone ls ws a ms ws' (Nat.lt_of_lt_of_le hl hm)⟩

theorem Detaches.any (h : Detaches g ahead i n p p') : Detaches g ahead 0 n p p' :=
  h.le i.zero_le n.le_refl

theorem Detaches.below (h : Detaches g ahead i n p p') (hm : m ≤ n) : Detaches g ahead i m p p' :=
  h.le i.le_refl hm

/-- A step that reads more lexemes than there may be. -/
theorem detaches_of_eats (h : Eats i p) (hn : n ≤ i) : Detaches g ahead i n p p' := by
  refine ⟨h, fun ls ws a ms ws' hl hp => ?_⟩
  obtain ⟨read, rfl, hi⟩ := h.split hp
  rw [List.length_append] at hl
  omega

/-- One step after another, the second one of which has as many lexemes less to read as the first one
reads. -/
theorem Detaches.seq (hp : Detaches g ahead i n p p') (hf : ∀ a, Detaches g ahead j m (f a) (u a))
    (hn : n ≤ m + i) : Detaches g ahead (j + i) n (p >>= f) (p' >>= u) := by
  refine ⟨hp.eats.bind fun a => (hf a).eats, fun ls ws b ms ws' hl h => ?_⟩
  obtain ⟨a, ⟨rest, words⟩, h₁, h₂⟩ := bind_eq_ok.mp h
  obtain ⟨read, rfl, -⟩ : ∃ read, rest = read ++ (ms ++ ahead) ∧ j ≤ read.length :=
    (hf a).eats _ _ _ h₂
  rw [← List.append_assoc] at h₁ h₂
  obtain ⟨front, rfl, hi⟩ := hp.eats.split h₁
  rw [bind_eq (hp.alone _ _ _ _ _ hl h₁)]
  refine (hf a).alone _ _ _ _ _ ?_ h₂
  rw [List.length_append] at hl
  omega

theorem Detaches.bind (hp : Detaches g ahead i n p p')
    (hf : ∀ a, Detaches g ahead 0 n (f a) (u a)) : Detaches g ahead i n (p >>= f) (p' >>= u) :=
  (hp.seq hf (Nat.le_add_right n i)).le (Nat.le_add_left i 0) n.le_refl

/-- A step after another, where it does not matter how much they read. -/
theorem Detaches.next (hp : Detaches g ahead i n p p')
    (hf : ∀ a, Detaches g ahead 0 n (f a) (u a)) : Detaches g ahead 0 n (p >>= f) (p' >>= u) :=
  (hp.bind hf).any

/-- A step after one that reads something. -/
theorem Detaches.after (hp : Detaches g ahead 1 n p p')
    (hf : ∀ a, Detaches g ahead 0 (n - 1) (f a) (u a)) :
    Detaches g ahead 1 n (p >>= f) (p' >>= u) :=
  hp.seq hf (by omega)

theorem detaches_pure (a : α) : Detaches g ahead 0 n (pure a) (pure a) := by
  refine ⟨fun s b t h => ?_, fun ls ws b ms ws' _ h => ?_⟩
  · obtain ⟨-, rfl⟩ := pure_eq_ok.mp h
    exact ⟨[], rfl, Nat.le_refl 0⟩
  · obtain ⟨rfl, hs⟩ := pure_eq_ok.mp h
    rw [Reader.mk.injEq] at hs
    obtain ⟨hls, rfl⟩ := hs
    rw [List.append_cancel_right hls]
    rfl

theorem detaches_fail : Detaches g ahead i n fail p' :=
  ⟨eats_fail, fun _ _ _ _ _ _ h => (fail_ne_ok h).elim⟩

theorem detaches_fail_bind {f : β → Parse α} : Detaches g ahead i n (fail >>= f) p' := by
  have hno : ∀ {s : Reader} {r : α × Reader}, (fail >>= f) s ≠ .ok r := fun h => by
    obtain ⟨_, _, h₁, -⟩ := bind_eq_ok.mp h
    exact fail_ne_ok h₁
  exact ⟨fun _ _ _ h => (hno h).elim, fun _ _ _ _ _ _ h => (hno h).elim⟩

theorem Detaches.ite {c : Prop} [Decidable c] (hp : Detaches g ahead i n p p')
    (hq : Detaches g ahead i n q q') :
    Detaches g ahead i n (if c then p else q) (if c then p' else q') := by
  split
  · exact hp
  · exact hq

theorem eats_take : Eats 1 take :=
  fun _ l _ h => ⟨[l], (take_eq_ok h).1, Nat.le_refl 1⟩

/-- A step that begins with a lexeme, of which the blank before it does not matter. -/
theorem detaches_take_bind {f u : Lexeme → Parse β} (hf : ∀ l, Detaches g ahead 0 (n - 1) (f l) (u l))
    (hg : ∀ l, u (respaced g l) = u l) : Detaches g ahead 1 n (take >>= f) (take >>= u) := by
  refine ⟨eats_take.bind fun l => (hf l).eats, fun ls ws b ms ws' hl h => ?_⟩
  obtain ⟨l, ⟨rest, words⟩, h₁, h₂⟩ := bind_eq_ok.mp h
  obtain ⟨hr, hw⟩ := take_eq_ok h₁
  obtain ⟨read, hrest, -⟩ := (hf l).eats _ _ _ h₂
  simp only at hr hw hrest
  subst hw hrest
  rw [← List.append_assoc, ← List.cons_append] at hr
  obtain rfl := List.append_cancel_right hr
  rw [← List.append_assoc] at h₂
  have hlen : (read ++ ms).length < n - 1 := by
    rw [List.length_cons] at hl
    omega
  have ht : take ⟨(l :: (read ++ ms)).map (respaced g), words⟩ =
      .ok (respaced g l, ⟨(read ++ ms).map (respaced g), words⟩) := rfl
  rw [bind_eq ht, hg]
  exact (hf l).alone _ _ _ _ _ hlen h₂

theorem detaches_skip : Detaches g ahead 1 n skip skip :=
  detaches_take_bind (fun _ => detaches_pure ()) fun _ => rfl

theorem detaches_word : Detaches g ahead 1 n word word := by
  refine ⟨fun s w t h => ?_, fun ls ws w ms ws' _ h => ?_⟩
  · obtain ⟨l, hr, -⟩ := word_eq_ok h
    exact ⟨[l], hr, Nat.le_refl 1⟩
  · obtain ⟨l, hr, rfl, hw⟩ := word_eq_ok h
    simp only at hr hw
    subst hw
    rw [← List.cons_append] at hr
    obtain rfl := List.append_cancel_right hr
    rfl

structure Looks (g : Lexeme → Bool) (ahead : List Lexeme) (i : Nat) (d : Reader → γ) (z : γ) :
    Prop where
  near : ∀ ls ws, i ≤ ls.length → d ⟨ls.map (respaced g), ws⟩ = d ⟨ls ++ ahead, ws⟩
  far : ∀ ls ws, d ⟨ls.map (respaced g), ws⟩ = d ⟨ls ++ ahead, ws⟩ ∨ d ⟨ls.map (respaced g), ws⟩ = z

theorem looks_at (i : Nat) {f : Option Lexeme → γ} (hf : ∀ l, f (some (respaced g l)) = f (some l)) :
    Looks g ahead (i + 1) (fun s => f s.rest[i]?) (f none) := by
  have hnear : ∀ (ls : List Lexeme), i < ls.length →
      f (ls.map (respaced g))[i]? = f (ls ++ ahead)[i]? := fun ls hl => by
    rw [List.getElem?_map, List.getElem?_append_left hl, List.getElem?_eq_getElem hl, Option.map_some,
      hf]
  refine ⟨fun ls _ hl => hnear ls hl, fun ls _ => ?_⟩
  by_cases hl : i < ls.length
  · exact .inl (hnear ls hl)
  · refine .inr (congrArg f (List.getElem?_eq_none ?_))
    rw [List.length_map]
    exact Nat.le_of_not_lt hl

theorem looks_head {f : Option Lexeme → γ} (hf : ∀ l, f (some (respaced g l)) = f (some l)) :
    Looks g ahead 1 (fun s => f s.rest.head?) (f none) := by
  simp only [List.head?_eq_getElem?]
  exact looks_at 0 hf

theorem Looks.le {d : Reader → γ} {z : γ} (hd : Looks g ahead i d z) (hj : i ≤ j) :
    Looks g ahead j d z :=
  ⟨fun ls ws hl => hd.near ls ws (Nat.le_trans hj hl), hd.far⟩

/-- The further lexemes matter only if the first ones are as expected. -/
theorem Looks.ite {d : Reader → Bool} {e : Reader → γ} {z : γ} (hd : Looks g ahead i d false)
    (he : Looks g ahead j e z) (hi : i ≤ j) :
    Looks g ahead j (fun s => if d s then e s else z) z := by
  refine ⟨fun ls ws hl => ?_, fun ls ws => ?_⟩
  · rw [hd.near ls ws (Nat.le_trans hi hl), he.near ls ws hl]
  · obtain h₁ | h₁ := hd.far ls ws
    · obtain h₂ | h₂ := he.far ls ws
      · exact .inl (by rw [h₁, h₂])
      · exact .inr (by simp [h₂])
    · exact .inr (by simp [h₁])

theorem Looks.and {d e : Reader → Bool} (hd : Looks g ahead i d false)
    (he : Looks g ahead j e false) (hi : i ≤ j) :
    Looks g ahead j (fun s => d s && e s) false := by
  have hite : (fun s => d s && e s) = fun s => if d s then e s else false := by
    funext s
    cases d s <;> rfl
  rw [hite]
  exact hd.ite he hi

/-- A step that looks ahead, and reads what it has seen unless this is `z`. -/
theorem Looks.detaches {d : Reader → γ} {z : γ} {f u : γ → Parse α} (hd : Looks g ahead j d z)
    (hf : ∀ y, y ≠ z → Detaches g ahead j n (f y) (u y)) (hz : Detaches g ahead i n (f z) (u z))
    (hi : i ≤ j) : Detaches g ahead i n (fun s => f (d s) s) (fun s => u (d s) s) := by
  refine ⟨fun s a t h => ?_, fun ls ws a ms ws' hl h => ?_⟩
  · by_cases hs : d s = z
    · exact hz.eats s a t (hs ▸ h)
    · exact ((hf _ hs).eats.le hi) s a t h
  · by_cases hs : d ⟨ls ++ ahead, ws⟩ = z
    · have hs' : d ⟨ls.map (respaced g), ws⟩ = z := by
        obtain he | he := hd.far ls ws
        · rw [he, hs]
        · exact he
      rw [hs] at h
      rw [hs']
      exact hz.alone ls ws a ms ws' hl h
    · obtain ⟨read, rfl, hj⟩ := (hf _ hs).eats.split h
      rw [hd.near _ ws (by rw [List.length_append]; omega)]
      exact (hf _ hs).alone _ ws a ms ws' hl h

theorem Looks.detaches_ite {d : Reader → Bool} (hd : Looks g ahead j d false)
    (hp : Detaches g ahead j n p p') (hq : Detaches g ahead i n q q') (hi : i ≤ j) :
    Detaches g ahead i n (fun s => (if d s = true then p else q) s)
      (fun s => (if d s = true then p' else q') s) := by
  refine hd.detaches (f := fun b => if b = true then p else q)
    (u := fun b => if b = true then p' else q') (fun b hb => ?_) hq hi
  obtain rfl : b = true := by simpa using hb
  exact hp

theorem looks_shows (i : Nat) (x : String) : Looks g ahead (i + 1) (Reader.shows i x) false :=
  looks_at (g := g) i (f := fun o : Option Lexeme => o.any fun l => l.text == x) fun _ => rfl

/-- A step that goes on with a sign, or without it. -/
theorem detaches_sees (hp : Detaches g ahead 1 n p p') (hq : Detaches g ahead 0 n q q') :
    Detaches g ahead 0 n (do if ← sees x then p else q) (do if ← sees x then p' else q') :=
  (looks_shows 0 x).detaches_ite hp hq (Nat.zero_le 1)

/-- A step that begins with a sign, or with another lexeme. -/
theorem detaches_begins (hp : Detaches g ahead 1 n p p') (hq : Detaches g ahead 1 n q q') :
    Detaches g ahead 1 n (do if ← sees x then p else q) (do if ← sees x then p' else q') :=
  (looks_shows 0 x).detaches_ite hp hq (Nat.le_refl 1)

theorem detaches_expect : Detaches g ahead 1 n (expect x) (expect x) :=
  detaches_begins detaches_skip detaches_fail

theorem detaches_accept : Detaches g ahead 0 n (accept x) (accept x) :=
  detaches_sees detaches_skip (detaches_pure ())

/-- A step that looks at the next lexeme first, but not at the blank before it, and reads it. -/
theorem detaches_next?_bind {f u : Option Lexeme → Parse β}
    (hs : ∀ l, Detaches g ahead 1 n (f (some l)) (u (some l)))
    (hn : Detaches g ahead 1 n (f none) (u none))
    (hf : ∀ g l, f (some (respaced g l)) = f (some l))
    (hg : ∀ g l, u (some (respaced g l)) = u (some l)) :
    Detaches g ahead 1 n (next? >>= f) (next? >>= u) := by
  have hlook : Looks g ahead 1 (fun s => s.rest.head?.map (respaced fun _ => false)) none :=
    looks_head (f := Option.map (respaced fun _ => false)) fun _ => rfl
  have hsame : ∀ {f : Option Lexeme → Parse β}, (∀ g l, f (some (respaced g l)) = f (some l)) →
      (next? >>= f) = fun s => f (s.rest.head?.map (respaced fun _ => false)) s := fun {f} hf => by
    funext s
    have hnext : (next? >>= f) s = f s.rest.head? s := rfl
    rw [hnext]
    cases s.rest.head? with
    | none => rfl
    | some l => rw [Option.map_some, hf]
  rw [hsame hf, hsame hg]
  refine hlook.detaches (fun o ho => ?_) hn (Nat.le_refl 1)
  obtain ⟨l, rfl⟩ := Option.ne_none_iff_exists'.mp ho
  exact hs l

/-- Rounds that each read something are as many as there are lexemes at most. -/
theorem detaches_rounds {f u : Nat → Parse α} (hzero : f 0 = fail)
    (hstep : ∀ b b' j, j ≤ n → Detaches g ahead i (j - 1) (f b) (u b') →
      Detaches g ahead i j (f (b + 1)) (u (b' + 1))) (b b' j : Nat) (hn : j ≤ n) (hj : j ≤ b') :
    Detaches g ahead i j (f b) (u b') := by
  induction b generalizing b' j with
  | zero =>
    rw [hzero]
    exact detaches_fail
  | succ b ih =>
    cases j with
    | zero =>
      have h := hstep b 0 0 n.zero_le (ih 0 0 n.zero_le (Nat.le_refl 0))
      exact detaches_of_eats h.eats i.zero_le
    | succ j =>
      obtain ⟨b', rfl⟩ : ∃ c, b' = c + 1 := ⟨b' - 1, by omega⟩
      exact hstep b b' (j + 1) hn (ih b' j (by omega) (by omega))

/-- A step that counts the lexemes ahead to bound its rounds. -/
theorem detaches_get_bind {f u : Nat → Parse β}
    (hf : ∀ b m j, j ≤ n → j ≤ m + 1 → m ≤ b → Detaches g ahead i j (f b) (u m)) :
    Detaches g ahead i n (get >>= fun s : Reader => f s.rest.length)
      (get >>= fun s : Reader => u s.rest.length) := by
  refine ⟨fun s b t h => ?_, fun ls ws b ms ws' hl h => ?_⟩
  · exact (hf s.rest.length 0 0 (Nat.zero_le n) (Nat.zero_le _) (Nat.zero_le _)).eats s b t h
  · have hle : ls.length ≤ (ls ++ ahead).length := by simp
    have hcount : (get >>= fun s : Reader => u s.rest.length) ⟨ls.map (respaced g), ws⟩ =
        u ls.length ⟨ls.map (respaced g), ws⟩ := by
      rw [← List.length_map (f := respaced g)]
      rfl
    rw [hcount]
    exact (hf _ _ _ hl (Nat.le_refl _) hle).alone ls ws b ms ws' (Nat.lt_succ_self _) h

/-- Rounds that are bounded by the number of the lexemes ahead. -/
theorem detaches_get_rounds {f u : Nat → Parse β} (hzero : f 0 = fail)
    (hstep : ∀ b b' j, j ≤ n → Detaches g ahead i (j - 1) (f b) (u b') →
      Detaches g ahead i j (f (b + 1)) (u (b' + 1))) :
    Detaches g ahead i n (get >>= fun s : Reader => f (s.rest.length + 1))
      (get >>= fun s : Reader => u (s.rest.length + 1)) :=
  detaches_get_bind (f := fun m => f (m + 1)) (u := fun m => u (m + 1)) fun b m j hj hm _ =>
    detaches_rounds hzero hstep (b + 1) (m + 1) j hj hm

/-- Items are read alike if `more` looks no further than the separator and the lexeme after it. -/
theorem detaches_items {more : Parse Bool} {d : Reader → Bool} (hi : Detaches g ahead 1 n p p')
    (hmore : ∀ s, more s = .ok (d s, s)) (hd : Looks g ahead 2 d false) :
    Detaches g ahead 1 n (items p more) (items p' more) := by
  refine detaches_get_rounds (f := itemsTo p more) (u := itemsTo p' more) rfl fun b b' j hj h => ?_
  refine (hi.below hj).after fun a => ?_
  have hlook : ∀ q q' : Parse (List α), (more >>= fun b => if b = true then q else q') =
      fun s => (if d s = true then q else q') s := fun q q' => by
    funext s
    rw [bind_eq (hmore s)]
  rw [hlook, hlook]
  have hrest : Detaches g ahead 1 (j - 1) (return a :: (← itemsTo p more b))
      (return a :: (← itemsTo p' more b')) := h.bind fun as => detaches_pure (a :: as)
  exact hd.detaches_ite (detaches_skip.seq (fun _ => hrest) (Nat.le_add_right _ _))
    (detaches_pure [a]) (Nat.zero_le 2)

end Parse
end PhpDoc
