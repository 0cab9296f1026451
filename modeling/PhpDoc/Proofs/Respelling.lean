import PhpDoc.Proofs.Answers
import PhpDoc.Proofs.Yields
import PhpDoc.Type.TypedTag
/-!
Reading words in their recommended spelling. A step that reads some lexemes does the same with these
lexemes at other places and with the words respelled, unless the last one is `integer` before an
angle bracket: respelled, it begins a range.
-/
namespace PhpDoc

/-- New places of lexemes, and the places of the words that are respelled. -/
structure Respelling where
  words : List Nat
  place : Nat → Nat

def Respelling.lexeme (r : Respelling) (l : Lexeme) : Lexeme :=
  { l with start := r.place l.start, text := TypedTag.respell r.words l }

def Respelling.reader (r : Respelling) (s : Reader) : Reader :=
  ⟨s.rest.map r.lexeme, s.words.map r.place⟩

namespace Reader
variable {s t u : Reader} {r : Respelling} {l : Lexeme}

def shows (i : Nat) (x : String) (s : Reader) : Bool :=
  (s.rest[i]?).any (·.text == x)

def Moves (s t : Reader) : Prop :=
  ∃ read noted, s.rest = read ++ t.rest ∧ t.words = noted ++ s.words ∧
    ∀ w ∈ noted, ∃ l ∈ read, l.start = w

structure Ready (s : Reader) : Prop where
  nodup : (s.rest.map Lexeme.start).Nodup
  fresh : ∀ l ∈ s.rest, l.start ∉ s.words
  symbol : ∀ l ∈ s.rest, l.text = "<" → l.kind = .symbol

def Agrees (r : Respelling) (s t : Reader) : Prop :=
  ∀ read, s.rest = read ++ t.rest → ∀ l ∈ read, (l.start ∈ r.words ↔ l.start ∈ t.words)

/-- The last lexeme read is the word `integer`, and an angle bracket follows. -/
def Torn (s t : Reader) : Prop :=
  ∃ read d l rest, s.rest = read ++ d :: t.rest ∧ t.rest = l :: rest ∧ d.start ∈ t.words ∧
    d.text = "integer" ∧ l.text = "<"

theorem Moves.refl (s : Reader) : Moves s s :=
  ⟨[], [], rfl, rfl, by simp⟩

theorem Moves.trans (h₁ : Moves s u) (h₂ : Moves u t) : Moves s t := by
  obtain ⟨read₁, noted₁, hr₁, hw₁, hn₁⟩ := h₁
  obtain ⟨read₂, noted₂, hr₂, hw₂, hn₂⟩ := h₂
  refine ⟨read₁ ++ read₂, noted₂ ++ noted₁, ?_, ?_, fun w hw => ?_⟩
  · rw [hr₁, hr₂, List.append_assoc]
  · rw [hw₂, hw₁, List.append_assoc]
  · cases List.mem_append.mp hw with
    | inl hw =>
      obtain ⟨l, hl, he⟩ := hn₂ w hw
      exact ⟨l, List.mem_append_right _ hl, he⟩
    | inr hw =>
      obtain ⟨l, hl, he⟩ := hn₁ w hw
      exact ⟨l, List.mem_append_left _ hl, he⟩

theorem Moves.length_le (h : Moves s t) : t.rest.length ≤ s.rest.length := by
  obtain ⟨read, _, hr, -, -⟩ := h
  simp [hr]

/-- A reader that reads nothing notes nothing. -/
theorem Moves.eq_of_rest (h : Moves s t) (he : t.rest = s.rest) : t = s := by
  obtain ⟨read, noted, hr, hw, hn⟩ := h
  obtain rfl : read = [] := by simpa [he] using hr
  obtain rfl : noted = [] := by
    refine List.eq_nil_iff_forall_not_mem.mpr fun w hm => ?_
    obtain ⟨l, hl, -⟩ := hn w hm
    simp at hl
  cases s
  cases t
  simp_all

theorem Ready.moves (hs : Ready s) (h : Moves s t) : Ready t := by
  obtain ⟨read, noted, hr, hw, hn⟩ := h
  have hnodup := hs.nodup
  rw [hr, List.map_append] at hnodup
  refine ⟨(List.nodup_append.mp hnodup).2.1, fun l hl hm => ?_, fun l hl => ?_⟩
  · rw [hw] at hm
    cases List.mem_append.mp hm with
    | inl hm =>
      obtain ⟨k, hk, he⟩ := hn _ hm
      exact (List.nodup_append.mp hnodup).2.2 _ (List.mem_map_of_mem hk) _
        (List.mem_map_of_mem hl) he
    | inr hm => exact hs.fresh l (hr ▸ List.mem_append_right _ hl) hm
  · exact hs.symbol l (hr ▸ List.mem_append_right _ hl)

theorem Agrees.right (h : Agrees r s t) (hm : Moves s u) : Agrees r u t := by
  obtain ⟨read, -, hr, -, -⟩ := hm
  intro read' hr' l hl
  refine h (read ++ read') ?_ l (List.mem_append_right _ hl)
  rw [hr, hr', List.append_assoc]

theorem Agrees.left (h : Agrees r s t) (hs : Ready s) (h₂ : Moves u t) :
    Agrees r s u := by
  intro read hr l hl
  obtain ⟨read', noted, hr', hw, hn⟩ := h₂
  have hall := h (read ++ read') (by rw [hr, hr', List.append_assoc]) l (List.mem_append_left _ hl)
  rw [hall, hw, List.mem_append]
  refine ⟨fun hm => hm.resolve_left fun hm => ?_, Or.inr⟩
  obtain ⟨k, hk, he⟩ := hn _ hm
  have hnodup := hs.nodup
  rw [hr, List.map_append] at hnodup
  refine (List.nodup_append.mp hnodup).2.2 _ (List.mem_map_of_mem hl) k.start ?_ he.symm
  exact List.mem_map_of_mem (hr' ▸ List.mem_append_left _ hk)

theorem Torn.moved (ht : Torn s t) : t.rest ≠ s.rest := by
  obtain ⟨read, d, l, rest, hr, -, -⟩ := ht
  intro he
  have hlen := congrArg List.length (he.trans hr)
  simp at hlen
  omega

theorem Torn.right (ht : Torn s t) (h₁ : Moves s u) (h₂ : Moves u t) (hne : t.rest ≠ u.rest) :
    Torn u t := by
  obtain ⟨read, d, l, rest, hr, hrest, hd⟩ := ht
  obtain ⟨read₁, -, hr₁, -⟩ := h₁
  obtain ⟨read₂, -, hr₂, -⟩ := h₂
  have hread₂ : read₂ ≠ [] := by
    rintro rfl
    exact hne hr₂.symm
  obtain ⟨front, e, rfl⟩ := (List.eq_nil_or_concat' read₂).resolve_left hread₂
  have he : read ++ d :: t.rest = (read₁ ++ front) ++ e :: t.rest := by
    rw [← hr, hr₁, hr₂]
    simp
  obtain ⟨-, hde⟩ := List.append_inj' he (by simp)
  obtain ⟨rfl, -⟩ := List.cons.inj hde
  exact ⟨front, d, l, rest, by rw [hr₂]; simp, hrest, hd⟩

theorem Torn.left (ht : Torn u t) (h₁ : Moves s u) : Torn s t := by
  obtain ⟨read, d, l, rest, hr, hd⟩ := ht
  obtain ⟨read₁, -, hr₁, -⟩ := h₁
  exact ⟨read₁ ++ read, d, l, rest, by rw [hr₁, hr, List.append_assoc], hd⟩

end Reader

namespace Words

def isNeutral (w : String) : Bool :=
  recommended.all fun r => w != r.1 && w != r.2

theorem respell_eq_iff {v w : String} (hw : isNeutral w = true) : respell v = w ↔ v = w := by
  have hall : ∀ r ∈ recommended, w ≠ r.1 ∧ w ≠ r.2 := by simpa [isNeutral] using hw
  unfold respell
  cases hl : recommended.lookup v with
  | none => rfl
  | some x =>
    obtain ⟨h₁, h₂⟩ := hall (v, x) (mem_of_lookup hl)
    exact ⟨fun he => (h₂ he.symm).elim, fun he => (h₁ he.symm).elim⟩

end Words

theorem Respelling.text_eq_iff {r : Respelling} {l : Lexeme} {w : String}
    (hw : Words.isNeutral w = true) : (r.lexeme l).text = w ↔ l.text = w := by
  simp only [lexeme, TypedTag.respell]
  split
  · exact Words.respell_eq_iff hw
  · rfl

/-- Signs are seen where they were. -/
theorem Respelling.shows_reader {r : Respelling} {s : Reader} {n : Nat} {w : String}
    (hw : Words.isNeutral w = true) : (r.reader s).shows n w = s.shows n w := by
  have hl : ∀ l : Lexeme, ((r.lexeme l).text == w) = (l.text == w) := fun l => by
    rw [Bool.eq_iff_iff, beq_iff_eq, beq_iff_eq, text_eq_iff hw]
  simp only [Reader.shows, reader, List.getElem?_map]
  cases s.rest[n]? with
  | none => rfl
  | some l => exact hl l

namespace Parse
open Reader
variable {α β : Type} {r : Respelling} {H : Reader → Prop} {p : Parse α} {f : α → Parse β}
  {s t : Reader} {a : α} {x : String} {l : Lexeme}

/-- From certain readers on, a step does the same before respelled lexemes, unless the last word is
torn from what follows: then it reads further. -/
structure Carries (r : Respelling) (H : Reader → Prop) (p : Parse α) : Prop where
  moves : ∀ s a t, p s = .ok (a, t) → Moves s t
  same : ∀ s a t, H s → Ready s → p s = .ok (a, t) → Agrees r s t → ¬Torn s t →
    p (r.reader s) = .ok (a, r.reader t)
  torn : ∀ s a t, H s → Ready s → p s = .ok (a, t) → Agrees r s t → Torn s t →
    ∀ b u, p (r.reader s) = .ok (b, u) → u.rest.length < t.rest.length

def Plain (p : Parse α) : Prop :=
  ∀ s a t, Ready s → p s = .ok (a, t) → ¬Torn s t

def Shuns (p : Parse α) : Prop :=
  ∀ s a t l rest, s.rest = l :: rest → l.text = "<" → l.kind = .symbol → p s = .ok (a, t) →
    t.rest = s.rest

theorem Carries.weaken (h : Carries r (fun _ => True) p) : Carries r H p :=
  ⟨h.moves, fun s a t _ => h.same s a t trivial, fun s a t _ => h.torn s a t trivial⟩

/-- One step after another, the second one of which goes no further if the first one ends torn. -/
theorem Carries.bind (hp : Carries r H p) (hf : ∀ a, Carries r (fun _ => True) (f a))
    (hstay : ∀ s a u b t, Ready s → p s = .ok (a, u) → f a u = .ok (b, t) → Torn s u →
      t.rest = u.rest) : Carries r H (p >>= f) where
  moves s b t h := by
    obtain ⟨a, u, h₁, h₂⟩ := bind_eq_ok.mp h
    exact (hp.moves s a u h₁).trans ((hf a).moves u b t h₂)
  same s b t hH hs h hA hT := by
    obtain ⟨a, u, h₁, h₂⟩ := bind_eq_ok.mp h
    have hm₁ := hp.moves s a u h₁
    have hm₂ := (hf a).moves u b t h₂
    have hsu : ¬Torn s u := fun ht => hT (hm₂.eq_of_rest (hstay s a u b t hs h₁ h₂ ht) ▸ ht)
    rw [bind_eq (hp.same s a u hH hs h₁ (hA.left hs hm₂) hsu)]
    exact (hf a).same u b t trivial (hs.moves hm₁) h₂ (hA.right hm₁) fun ht => hT (ht.left hm₁)
  torn s b t hH hs h hA hT b' v hv := by
    obtain ⟨a, u, h₁, h₂⟩ := bind_eq_ok.mp h
    have hm₁ := hp.moves s a u h₁
    have hm₂ := (hf a).moves u b t h₂
    by_cases hsu : Torn s u
    · -- the second step has read nothing, so the first one is what reads further
      obtain ⟨a', u', h₁', h₂'⟩ := bind_eq_ok.mp hv
      have hlt := hp.torn s a u hH hs h₁ (hA.left hs hm₂) hsu a' u' h₁'
      have hle := ((hf a').moves u' b' v h₂').length_le
      rw [hstay s a u b t hs h₁ h₂ hsu]
      omega
    · rw [bind_eq (hp.same s a u hH hs h₁ (hA.left hs hm₂) hsu)] at hv
      have hne : t.rest ≠ u.rest := fun he => hsu (hm₂.eq_of_rest he ▸ hT)
      exact (hf a).torn u b t trivial (hs.moves hm₁) h₂ (hA.right hm₁) (hT.right hm₁ hm₂ hne) b' v hv

/-- A step after one that leaves no word torn. -/
theorem Carries.next (hp : Carries r H p) (hq : Plain p)
    (hf : ∀ a, Carries r (fun _ => True) (f a)) : Carries r H (p >>= f) :=
  hp.bind hf fun s a u _ _ hs h₁ _ ht => (hq s a u hs h₁ ht).elim

/-- A step after a type. -/
theorem Carries.last (hp : Carries r H p) (hf : ∀ a, Carries r (fun _ => True) (f a))
    (hq : ∀ a, Shuns (f a)) : Carries r H (p >>= f) := by
  refine hp.bind hf fun s a u b t hs h₁ h₂ ht => ?_
  obtain ⟨read, d, l, rest, hr, hrest, -, -, hl⟩ := ht
  have hmem : l ∈ s.rest := by rw [hr, hrest]; simp
  exact hq a u b t l rest hrest hl (hs.symbol l hmem hl) h₂

theorem plain_bind (hp : Plain p) (hm : ∀ s a t, p s = .ok (a, t) → Moves s t)
    (hf : ∀ a, Plain (f a)) (hn : ∀ a s b t, f a s = .ok (b, t) → Moves s t) :
    Plain (p >>= f) := by
  intro s b t hs h ht
  obtain ⟨a, u, h₁, h₂⟩ := bind_eq_ok.mp h
  have hm₁ := hm s a u h₁
  have hm₂ := hn a u b t h₂
  by_cases he : t.rest = u.rest
  · exact hp s a u hs h₁ (hm₂.eq_of_rest he ▸ ht)
  · exact hf a u b t (hs.moves hm₁) h₂ (ht.right hm₁ hm₂ he)

structure Quiet (r : Respelling) (p : Parse α) : Prop extends Carries r (fun _ => True) p where
  plain : Plain p

theorem Quiet.carries (hp : Quiet r p) (hf : ∀ a, Carries r (fun _ => True) (f a)) :
    Carries r (fun _ => True) (p >>= f) :=
  hp.toCarries.next hp.plain hf

theorem Quiet.bind (hp : Quiet r p) (hf : ∀ a, Quiet r (f a)) : Quiet r (p >>= f) :=
  ⟨hp.carries fun a => (hf a).toCarries,
    plain_bind hp.plain hp.moves (fun a => (hf a).plain) fun a => (hf a).moves⟩

/-- A step that reads no lexeme. -/
theorem quiet_of_stay (h : ∀ s, ∃ a, p s = .ok (a, s) ∧ p (r.reader s) = .ok (a, r.reader s)) :
    Quiet r p := by
  have hstay : ∀ s a t, p s = .ok (a, t) → t = s ∧ p (r.reader s) = .ok (a, r.reader t) := by
    intro s a t hp
    obtain ⟨b, h₁, h₂⟩ := h s
    rw [h₁] at hp
    cases hp
    exact ⟨rfl, h₂⟩
  refine ⟨⟨fun s a t hp => ?_, fun s a t _ _ hp _ _ => (hstay s a t hp).2, fun s a t _ _ hp _ ht => ?_⟩,
    fun s a t _ hp ht => ?_⟩
  · rw [(hstay s a t hp).1]
    exact Moves.refl s
  · exact (ht.moved (congrArg Reader.rest (hstay s a t hp).1)).elim
  · exact ht.moved (congrArg Reader.rest (hstay s a t hp).1)

theorem quiet_pure (a : α) : Quiet r (pure a) :=
  quiet_of_stay fun _ => ⟨a, rfl, rfl⟩

theorem carries_fail : Carries r H (fail : Parse α) :=
  ⟨fun _ _ _ h => (fail_ne_ok h).elim, fun _ _ _ _ _ h => (fail_ne_ok h).elim,
    fun _ _ _ _ _ h => (fail_ne_ok h).elim⟩

theorem carries_fail_bind : Carries r H (fail >>= f) := by
  have hno : ∀ {s : Reader} {c : β × Reader}, (fail >>= f) s ≠ .ok c := fun h => by
    obtain ⟨_, _, h₁, -⟩ := bind_eq_ok.mp h
    exact fail_ne_ok h₁
  exact ⟨fun _ _ _ h => (hno h).elim, fun _ _ _ _ _ h => (hno h).elim,
    fun _ _ _ _ _ h => (hno h).elim⟩

theorem quiet_fail : Quiet r (fail : Parse α) :=
  ⟨carries_fail, fun _ _ _ _ h => (fail_ne_ok h).elim⟩

theorem quiet_seesAt (n : Nat) (hx : Words.isNeutral x = true) : Quiet r (seesAt n x) := by
  refine quiet_of_stay fun s => ⟨s.shows n x, rfl, ?_⟩
  rw [← Respelling.shows_reader (r := r) hx]
  rfl

theorem quiet_sees (hx : Words.isNeutral x = true) : Quiet r (sees x) :=
  quiet_seesAt 0 hx

/-- A lexeme that is read, but not as a word, keeps its text. -/
theorem lexeme_of_unread (hs : Ready s) (hr : s.rest = l :: t.rest) (hw : t.words = s.words)
    (hA : Agrees r s t) : r.lexeme l = { l with start := r.place l.start } := by
  have hout : l.start ∉ r.words := fun hm => hs.fresh l (by simp [hr]) <| by
    rw [← hw]
    exact (hA [l] hr l (by simp)).mp hm
  simp [Respelling.lexeme, TypedTag.respell, hout]

theorem take_eq_ok (h : take s = .ok (l, t)) : s.rest = l :: t.rest ∧ t.words = s.words := by
  unfold take at h
  cases hr : s.rest with
  | nil => simp [hr] at h
  | cons k rest =>
    simp only [hr, Except.ok.injEq, Prod.mk.injEq] at h
    obtain ⟨rfl, rfl⟩ := h
    exact ⟨rfl, rfl⟩

theorem moves_of_unread (hr : s.rest = l :: t.rest) (hw : t.words = s.words) : Moves s t :=
  ⟨[l], [], by simpa using hr, by simpa using hw, by simp⟩

theorem not_torn_of_unread (hs : Ready s) (hw : t.words = s.words) : ¬Torn s t := by
  rintro ⟨read, d, k, rest, hr, -, hd, -⟩
  exact hs.fresh d (by simp [hr]) (hw ▸ hd)

/-- A step that begins with a lexeme of which only the place may change. -/
theorem carries_take_bind {f : Lexeme → Parse β} (hf : ∀ l, Carries r (fun _ => True) (f l))
    (hg : ∀ l n, f { l with start := n } = f l) : Carries r (fun _ => True) (take >>= f) where
  moves s b t h := by
    obtain ⟨l, u, h₁, h₂⟩ := bind_eq_ok.mp h
    obtain ⟨hr, hw⟩ := take_eq_ok h₁
    exact (moves_of_unread hr hw).trans ((hf l).moves u b t h₂)
  same s b t _ hs h hA hT := by
    obtain ⟨l, u, h₁, h₂⟩ := bind_eq_ok.mp h
    obtain ⟨hr, hw⟩ := take_eq_ok h₁
    have hm₁ := moves_of_unread hr hw
    have hm₂ := (hf l).moves u b t h₂
    have ht : take (r.reader s) = .ok ({ l with start := r.place l.start }, r.reader u) := by
      rw [← lexeme_of_unread hs hr hw (hA.left hs hm₂)]
      simp [take, Respelling.reader, hr, hw]
    rw [bind_eq ht, hg]
    exact (hf l).same u b t trivial (hs.moves hm₁) h₂ (hA.right hm₁) fun ht => hT (ht.left hm₁)
  torn s b t _ hs h hA hT b' v hv := by
    obtain ⟨l, u, h₁, h₂⟩ := bind_eq_ok.mp h
    obtain ⟨hr, hw⟩ := take_eq_ok h₁
    have hm₁ := moves_of_unread hr hw
    have hm₂ := (hf l).moves u b t h₂
    have ht : take (r.reader s) = .ok ({ l with start := r.place l.start }, r.reader u) := by
      rw [← lexeme_of_unread hs hr hw (hA.left hs hm₂)]
      simp [take, Respelling.reader, hr, hw]
    rw [bind_eq ht, hg] at hv
    have hne : t.rest ≠ u.rest := fun he =>
      not_torn_of_unread hs hw (hm₂.eq_of_rest he ▸ hT)
    exact (hf l).torn u b t trivial (hs.moves hm₁) h₂ (hA.right hm₁) (hT.right hm₁ hm₂ hne) b' v hv

theorem quiet_skip : Quiet r skip := by
  refine ⟨carries_take_bind (fun _ => (quiet_pure ()).toCarries) fun _ _ => rfl, fun s a t hs h => ?_⟩
  obtain ⟨l, u, h₁, h₂⟩ := bind_eq_ok.mp h
  obtain ⟨-, rfl⟩ := pure_eq_ok.mp h₂
  exact not_torn_of_unread hs (take_eq_ok h₁).2

theorem skip_eq_ok {u : Unit} (h : skip s = .ok (u, t)) :
    ∃ l, s.rest = l :: t.rest ∧ t.words = s.words := by
  obtain ⟨l, v, h₁, h₂⟩ := bind_eq_ok.mp h
  obtain ⟨-, rfl⟩ := pure_eq_ok.mp h₂
  exact ⟨l, take_eq_ok h₁⟩

theorem Quiet.ite {c : Prop} [Decidable c] {q : Parse α} (hp : Quiet r p) (hq : Quiet r q) :
    Quiet r (if c then p else q) := by
  split
  · exact hp
  · exact hq

theorem Carries.ite {c : Prop} [Decidable c] {q : Parse α} (hp : Carries r H p)
    (hq : Carries r H q) : Carries r H (if c then p else q) := by
  split
  · exact hp
  · exact hq

theorem quiet_expect (hx : Words.isNeutral x = true) : Quiet r (expect x) :=
  (quiet_sees hx).bind fun _ => quiet_skip.ite quiet_fail

theorem quiet_accept (hx : Words.isNeutral x = true) : Quiet r (accept x) :=
  (quiet_sees hx).bind fun _ => quiet_skip.ite (quiet_pure ())

/-- A step that looks at the next lexeme first, but not at its place or spelling. -/
theorem carries_next?_bind {f : Option Lexeme → Parse β}
    (hn : Carries r (fun _ => True) (f none))
    (hf : ∀ l, Carries r (fun s => s.rest.head? = some l) (f (some l)))
    (hg : ∀ l, f (some (r.lexeme l)) = f (some l)) : Carries r (fun _ => True) (next? >>= f) := by
  have hsame : ∀ s, (next? >>= f) (r.reader s) = f s.rest.head? (r.reader s) := by
    intro s
    have hnext : (next? >>= f) (r.reader s) = f ((s.rest.map r.lexeme).head?) (r.reader s) := rfl
    rw [hnext]
    cases hr : s.rest with
    | nil => rfl
    | cons l rest => exact congrFun (hg l) _
  have hhead : ∀ s, ∃ H : Reader → Prop, H s ∧ Carries r H (f s.rest.head?) := by
    intro s
    cases hh : s.rest.head? with
    | none => exact ⟨_, trivial, hn⟩
    | some l => exact ⟨_, hh, hf l⟩
  refine ⟨fun s b t h => ?_, fun s b t _ hs h hA hT => ?_, fun s b t _ hs h hA hT b' v hv => ?_⟩
  · obtain ⟨H, -, hc⟩ := hhead s
    exact hc.moves s b t h
  · obtain ⟨H, hH, hc⟩ := hhead s
    rw [hsame]
    exact hc.same s b t hH hs h hA hT
  · obtain ⟨H, hH, hc⟩ := hhead s
    rw [hsame] at hv
    exact hc.torn s b t hH hs h hA hT b' v hv

theorem quiet_next?_bind {f : Option Lexeme → Parse β} (hf : ∀ o, Quiet r (f o))
    (hg : ∀ l, f (some (r.lexeme l)) = f (some l)) : Quiet r (next? >>= f) :=
  ⟨carries_next?_bind (hf none).toCarries (fun l => (hf (some l)).toCarries.weaken) hg,
    fun s b t hs h => (hf s.rest.head?).plain s b t hs h⟩

/-- A step that counts the lexemes ahead first. -/
theorem carries_get_bind {f : Nat → Parse β} (hf : ∀ n, Carries r H (f n)) :
    Carries r H (get >>= fun s : Reader => f s.rest.length) := by
  have hsame : ∀ s, (get >>= fun s : Reader => f s.rest.length) (r.reader s) =
      f s.rest.length (r.reader s) := by
    intro s
    have hget : (get >>= fun s : Reader => f s.rest.length) (r.reader s) =
        f (s.rest.map r.lexeme).length (r.reader s) := rfl
    rw [hget, List.length_map]
  refine ⟨fun s b t h => (hf s.rest.length).moves s b t h, fun s b t hH hs h hA hT => ?_,
    fun s b t hH hs h hA hT b' v hv => ?_⟩
  · rw [hsame]
    exact (hf s.rest.length).same s b t hH hs h hA hT
  · rw [hsame] at hv
    exact (hf s.rest.length).torn s b t hH hs h hA hT b' v hv

/-- A step that looks at the lexemes ahead, of which only read ones matter. -/
theorem quiet_get_bind {g : Reader → Parse β} (hg : ∀ s, Quiet r (g s))
    (he : ∀ s b t, Ready s → g s s = .ok (b, t) → Agrees r s t → g (r.reader s) = g s) :
    Quiet r (get >>= g) := by
  have hsame : ∀ s, (get >>= g) (r.reader s) = g (r.reader s) (r.reader s) := fun _ => rfl
  refine ⟨⟨fun s b t h => (hg s).moves s b t h, fun s b t _ hs h hA hT => ?_,
    fun s b t _ hs h hA hT => ((hg s).plain s b t hs h hT).elim⟩, fun s b t hs h => (hg s).plain s b t hs h⟩
  rw [hsame, he s b t hs h hA]
  exact (hg s).same s b t trivial hs h hA hT

theorem word_eq_ok {w : String} (h : word s = .ok (w, t)) :
    ∃ l, s.rest = l :: t.rest ∧ w = l.text ∧ t.words = l.start :: s.words := by
  unfold word at h
  cases hr : s.rest with
  | nil => simp [hr] at h
  | cons l rest =>
    simp only [hr, Except.ok.injEq, Prod.mk.injEq] at h
    obtain ⟨rfl, rfl⟩ := h
    exact ⟨l, rfl, rfl, rfl⟩

theorem moves_word (hr : s.rest = l :: t.rest) (hw : t.words = l.start :: s.words) : Moves s t :=
  ⟨[l], [l.start], by simpa using hr, by simpa using hw, by simp⟩

theorem torn_word (hr : s.rest = l :: t.rest) (ht : Torn s t) : l.text = "integer" := by
  obtain ⟨read, d, k, rest, hr', -, -, hd, -⟩ := ht
  have he : [l] ++ t.rest = (read ++ [d]) ++ t.rest := by simpa using hr.symm.trans hr'
  obtain ⟨rfl, rfl⟩ : read = [] ∧ l = d := by
    have hl := List.append_cancel_right he
    cases read with
    | nil => simpa using hl
    | cons k read => simp at hl
  exact hd

/-- A word that is read is respelled. -/
theorem word_reader (hr : s.rest = l :: t.rest) (hw : t.words = l.start :: s.words)
    (hA : Agrees r s t) : word (r.reader s) = .ok (Words.respell l.text, r.reader t) := by
  have hin : l.start ∈ r.words := (hA [l] hr l (by simp)).mpr (by simp [hw])
  simp [word, Respelling.reader, Respelling.lexeme, TypedTag.respell, hr, hw, hin]

/-- A step that begins with a word whose spelling does not matter. -/
theorem carries_word_bind {f : String → Parse β} (hf : ∀ w, Carries r (fun _ => True) (f w))
    (hl : l.text ≠ "integer") (hg : f (Words.respell l.text) = f l.text) :
    Carries r (fun s => s.rest.head? = some l) (word >>= f) where
  moves s b t h := by
    obtain ⟨w, u, h₁, h₂⟩ := bind_eq_ok.mp h
    obtain ⟨k, hr, -, hw⟩ := word_eq_ok h₁
    exact (moves_word hr hw).trans ((hf w).moves u b t h₂)
  same s b t hH hs h hA hT := by
    obtain ⟨w, u, h₁, h₂⟩ := bind_eq_ok.mp h
    obtain ⟨k, hr, rfl, hw⟩ := word_eq_ok h₁
    obtain rfl : k = l := by simpa [hr] using hH
    have hm₁ := moves_word hr hw
    have hm₂ := (hf k.text).moves u b t h₂
    rw [bind_eq (word_reader hr hw (hA.left hs hm₂)), hg]
    exact (hf k.text).same u b t trivial (hs.moves hm₁) h₂ (hA.right hm₁) fun ht => hT (ht.left hm₁)
  torn s b t hH hs h hA hT b' v hv := by
    obtain ⟨w, u, h₁, h₂⟩ := bind_eq_ok.mp h
    obtain ⟨k, hr, rfl, hw⟩ := word_eq_ok h₁
    obtain rfl : k = l := by simpa [hr] using hH
    have hm₁ := moves_word hr hw
    have hm₂ := (hf k.text).moves u b t h₂
    rw [bind_eq (word_reader hr hw (hA.left hs hm₂)), hg] at hv
    have hne : t.rest ≠ u.rest := fun he => hl (torn_word hr (hm₂.eq_of_rest he ▸ hT))
    exact (hf k.text).torn u b t trivial (hs.moves hm₁) h₂ (hA.right hm₁) (hT.right hm₁ hm₂ hne)
      b' v hv

theorem respell_integer : Words.respell "integer" = "int" := by
  decide

/-- The word `integer`, which begins a range if it is respelled before an angle bracket. -/
theorem carries_integer_bind {f : String → Parse β} {a : β} {range : Parse β}
    (hl : l.text = "integer") (hf : ∀ w, Carries r (fun _ => True) (f w))
    (hlong : f "integer" = pure a)
    (hskip : ∀ s b t, range s = .ok (b, t) → t.rest.length < s.rest.length)
    (hshort : f "int" = do if ← sees "<" then range else pure a) :
    Carries r (fun s => s.rest.head? = some l) (word >>= f) := by
  have hsees : ∀ u : Reader, f "int" u =
      (if u.shows 0 "<" then range else pure a : Parse β) u := by
    intro u
    rw [hshort]
    rfl
  have hrun : ∀ s b t, s.rest.head? = some l → (word >>= f) s = .ok (b, t) →
      b = a ∧ s.rest = l :: t.rest ∧ t.words = l.start :: s.words := by
    intro s b t hH h
    obtain ⟨w, u, h₁, h₂⟩ := bind_eq_ok.mp h
    obtain ⟨k, hr, rfl, hw⟩ := word_eq_ok h₁
    obtain rfl : k = l := by simpa [hr] using hH
    rw [hl, hlong] at h₂
    obtain ⟨rfl, rfl⟩ := pure_eq_ok.mp h₂
    exact ⟨rfl, hr, hw⟩
  have himage : ∀ s t, s.rest = l :: t.rest → t.words = l.start :: s.words → Agrees r s t →
      (word >>= f) (r.reader s) = f "int" (r.reader t) := by
    intro s t hr hw hA
    rw [bind_eq (word_reader hr hw hA), hl, respell_integer]
  refine ⟨fun s b t h => ?_, fun s b t hH hs h hA hT => ?_, fun s b t hH hs h hA hT b' v hv => ?_⟩
  · obtain ⟨w, u, h₁, h₂⟩ := bind_eq_ok.mp h
    obtain ⟨k, hr, -, hw⟩ := word_eq_ok h₁
    exact (moves_word hr hw).trans ((hf w).moves u b t h₂)
  · obtain ⟨rfl, hr, hw⟩ := hrun s b t hH h
    have hno : (r.reader t).shows 0 "<" = false := by
      rw [Respelling.shows_reader (by decide), shows]
      cases hrest : t.rest with
      | nil => rfl
      | cons k rest =>
        refine beq_false_of_ne fun hk => hT ⟨[], l, k, rest, hr, hrest, ?_, hl, hk⟩
        rw [hw]
        exact List.mem_cons_self
    rw [himage s t hr hw hA, hsees, hno]
    rfl
  · obtain ⟨rfl, hr, hw⟩ := hrun s b t hH h
    obtain ⟨_, _, k, rest, -, hrest, -, -, hk⟩ := hT
    have hyes : (r.reader t).shows 0 "<" = true := by
      rw [Respelling.shows_reader (by decide)]
      simp [shows, hrest, hk]
    rw [himage s t hr hw hA, hsees, hyes] at hv
    simpa [Respelling.reader] using hskip _ _ _ hv

theorem shuns_of_stay (h : ∀ s a t, p s = .ok (a, t) → t = s) : Shuns p := by
  intro s a t l rest _ _ _ hp
  rw [h s a t hp]

theorem shuns_pure (a : α) : Shuns (pure a) :=
  shuns_of_stay fun _ _ _ h => (pure_eq_ok.mp h).2.symm

theorem shuns_fail : Shuns (fail : Parse α) :=
  fun _ _ _ _ _ _ _ _ h => (fail_ne_ok h).elim

theorem Shuns.bind (hp : Shuns p) (hf : ∀ a, Shuns (f a)) : Shuns (p >>= f) := by
  intro s b t l rest hr hl hk h
  obtain ⟨a, u, h₁, h₂⟩ := bind_eq_ok.mp h
  have hu := hp s a u l rest hr hl hk h₁
  exact (hf a u b t l rest (hu.trans hr) hl hk h₂).trans hu

theorem Shuns.ite {c : Prop} [Decidable c] {q : Parse α} (hp : Shuns p) (hq : Shuns q) :
    Shuns (if c then p else q) := by
  split
  · exact hp
  · exact hq

/-- A step that looks for another sign than the angle bracket. -/
theorem shuns_sees_bind {f : Bool → Parse β} (hx : x ≠ "<") (hf : Shuns (f false)) :
    Shuns (sees x >>= f) := by
  intro s b t l rest hr hl hk h
  have hsees : (sees x >>= f) s = f false s := by
    have hb : ((s.rest[0]?).any (·.text == x)) = false := by simp [hr, hl, Ne.symm hx]
    exact congrArg (fun b => f b s) hb
  rw [hsees] at h
  exact hf s b t l rest hr hl hk h

theorem shuns_expect_bind {f : Unit → Parse β} (hx : x ≠ "<") : Shuns (expect x >>= f) := by
  intro s b t l rest hr hl hk h
  obtain ⟨u, v, h₁, -⟩ := bind_eq_ok.mp h
  obtain ⟨b, w, h₂, h₃⟩ := bind_eq_ok.mp h₁
  have hb : b = false := by
    have he : (s.rest[0]?).any (·.text == x) = b := congrArg Prod.fst (Except.ok.inj h₂)
    rw [← he]
    simp [hr, hl, Ne.symm hx]
  subst hb
  exact (fail_ne_ok h₃).elim

theorem shuns_expect (hx : x ≠ "<") : Shuns (expect x) :=
  shuns_sees_bind hx shuns_fail

theorem shuns_next?_bind {f : Option Lexeme → Parse β}
    (hf : ∀ l, l.kind = .symbol → Shuns (f (some l))) : Shuns (next? >>= f) := by
  intro s b t l rest hr hl hk h
  have hnext : (next? >>= f) s = f (some l) s := by
    have hh : s.rest.head? = some l := by simp [hr]
    exact congrArg (fun o => f o s) hh
  rw [hnext] at h
  exact hf l hk s b t l rest hr hl hk h

theorem shuns_accept (hx : x ≠ "<") : Shuns (accept x) :=
  shuns_sees_bind hx (shuns_pure ())

theorem seesAt_stays {n : Nat} {b : Bool} (h : seesAt n x s = .ok (b, t)) : t = s :=
  (congrArg Prod.snd (Except.ok.inj h)).symm

theorem sees_ne_true {rest : List Lexeme} (hx : x ≠ "<") (hr : s.rest = l :: rest)
    (hl : l.text = "<") : sees x s ≠ .ok (true, t) := by
  intro h
  have hb : (s.rest[0]?).any (·.text == x) = true := congrArg Prod.fst (Except.ok.inj h)
  simp [hr, hl, Ne.symm hx] at hb

/-- Items are read alike if `more` only looks ahead, and goes on with another sign than the angle
bracket. -/
theorem carries_items {item : Parse α} {more : Parse Bool} (hi : Carries r (fun _ => True) item)
    (hm : Quiet r more) (hstay : ∀ s b t, more s = .ok (b, t) → t = s)
    (hno : ∀ s t l rest, s.rest = l :: rest → l.text = "<" → more s ≠ .ok (true, t)) :
    Carries r (fun _ => True) (items item more) := by
  refine carries_get_bind (f := fun n => itemsTo item more (n + 1)) fun n => ?_
  induction n + 1 with
  | zero => exact carries_fail
  | succ bound ih =>
    refine hi.last (fun a => hm.carries fun b => Carries.ite ?_ (quiet_pure _).toCarries) fun a => ?_
    · exact quiet_skip.carries fun _ => ih.last (fun _ => (quiet_pure _).toCarries)
        fun _ => shuns_pure _
    · intro s bs t l rest hr hl hk h
      obtain ⟨b, u, h₁, h₂⟩ := bind_eq_ok.mp h
      obtain rfl := hstay s b u h₁
      cases b with
      | true => exact (hno u u l rest hr hl h₁).elim
      | false => rw [(pure_eq_ok.mp h₂).2]

end Parse
end PhpDoc
