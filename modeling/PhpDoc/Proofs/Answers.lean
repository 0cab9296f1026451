import PhpDoc.Proofs.Spelling
import PhpDoc.Type.Reader
/-!
What a reading step does with given lexemes: it yields a value and leaves an end of them, or it finds
them malformed. Which type words were passed does not matter.
-/
namespace PhpDoc.Parse
variable {α β : Type} {ls ms rest : List Lexeme} {l : Lexeme} {a : α} {b : β} {o : Option β}

def Reads (p : Parse α) (ls : List Lexeme) (a : α) (rest : List Lexeme) : Prop :=
  ∀ ws, ∃ ws', p ⟨ls, ws⟩ = .ok (a, ⟨rest, ws'⟩)

def Answers (p : Parse α) (ls : List Lexeme) (o : Option α) (rest : List Lexeme) : Prop :=
  match o with
  | some a => Reads p ls a rest
  | none => ∀ ws, ∃ e, p ⟨ls, ws⟩ = .error e

theorem bind_eq_error {p : Parse α} {f : α → Parse β} {s : Reader} {e : Malformed}
    (h : p s = .error e) : (p >>= f) s = .error e := by
  change Except.bind (p s) (fun x => f x.1 x.2) = .error e
  rw [h]
  rfl

theorem bind_eq {p : Parse α} {f : α → Parse β} {s t : Reader} (h : p s = .ok (a, t)) :
    (p >>= f) s = f a t := by
  change Except.bind (p s) (fun x => f x.1 x.2) = f a t
  rw [h]
  rfl

theorem Reads.bind {p : Parse α} {f : α → Parse β} (hp : Reads p ls a ms)
    (hf : Reads (f a) ms b rest) : Reads (p >>= f) ls b rest := by
  intro ws
  obtain ⟨ws', h₁⟩ := hp ws
  obtain ⟨ws'', h₂⟩ := hf ws'
  exact ⟨ws'', (bind_eq h₁).trans h₂⟩

theorem Reads.answers {p : Parse α} {f : α → Parse β} (hp : Reads p ls a ms)
    (hf : Answers (f a) ms o rest) : Answers (p >>= f) ls o rest := by
  cases o with
  | some b => exact hp.bind hf
  | none =>
    intro ws
    obtain ⟨ws', h₁⟩ := hp ws
    obtain ⟨e, h₂⟩ := hf ws'
    exact ⟨e, (bind_eq h₁).trans h₂⟩

theorem answers_none_bind {p : Parse α} {f : α → Parse β} (hp : Answers p ls none ms) :
    Answers (p >>= f) ls none rest := by
  intro ws
  obtain ⟨e, h⟩ := hp ws
  exact ⟨e, bind_eq_error h⟩

theorem answers_fail : Answers (fail : Parse α) ls none rest :=
  fun _ => ⟨_, rfl⟩

theorem reads_pure : Reads (pure a) ls a ls :=
  fun ws => ⟨ws, rfl⟩

theorem reads_take : Reads take (l :: ls) l ls :=
  fun ws => ⟨ws, rfl⟩

theorem reads_skip : Reads skip (l :: ls) () ls :=
  reads_take.bind reads_pure

theorem reads_word : Reads word (l :: ls) l.text ls :=
  fun ws => ⟨l.start :: ws, rfl⟩

theorem reads_next? : Reads next? ls ls.head? ls :=
  fun ws => ⟨ws, rfl⟩

theorem reads_seesAt (ls : List Lexeme) (n : Nat) (text : String) :
    Reads (seesAt n text) ls ((ls[n]?).any (·.text == text)) ls :=
  fun ws => ⟨ws, rfl⟩

/-- A step that looks at the lexemes ahead. -/
theorem answers_get_bind {f : Reader → Parse β} (h : ∀ ws, Answers (f ⟨ls, ws⟩) ls o rest) :
    Answers (get >>= f) ls o rest := by
  cases o with
  | some b => exact fun ws => h ws ws
  | none => exact fun ws => h ws ws

theorem reads_sees_cons (l : Lexeme) (ls : List Lexeme) (text : String) :
    Reads (sees text) (l :: ls) (l.text == text) (l :: ls) :=
  fun ws => ⟨ws, rfl⟩

/-- What follows an atom, a member or a type: a sign that goes on with another one, or nothing. -/
def Follows (signs : List String) (rest : List Lexeme) : Prop :=
  ∀ l ∈ rest.head?, l.text ∈ signs

theorem Follows.reads_sees {signs : List String} {text : String} (h : Follows signs rest)
    (ht : text ∉ signs) : Reads (sees text) rest false rest := by
  cases rest with
  | nil => exact fun ws => ⟨ws, rfl⟩
  | cons l rest =>
    have hne : (l.text == text) = false := by
      have hl : l.text ∈ signs := h l (by simp)
      exact beq_false_of_ne fun he => ht (he ▸ hl)
    exact hne ▸ reads_sees_cons _ _ text

theorem Follows.mono {signs more : List String} (h : Follows signs rest) (hsub : signs ⊆ more) :
    Follows more rest :=
  fun l hl => hsub (h l hl)

section Items
variable {P : α → List Lexeme → Prop} {as : List α} {sep : String} {f : α → Option β}
  {item : Parse β} {more : Parse Bool} {F : List Lexeme → Prop}

/-- Items are read one by one up to where none follows. -/
theorem answers_itemsTo (hP : ∀ a ls, P a ls → ls ≠ [])
    (hitem : ∀ a ls rest, P a ls → F rest → Answers item (ls ++ rest) (f a) rest)
    (hsep : ∀ l rest, l.text = sep → F (l :: rest))
    (hnext : ∀ as l ms, SpellsItems sep P as ms → l.text = sep →
      Reads more (l :: (ms ++ rest)) true (l :: (ms ++ rest)))
    (hlast : Reads more rest false rest) (hF : F rest) (h : SpellsItems sep P as ls) (bound : Nat)
    (hb : ls.length ≤ bound) : Answers (itemsTo item more bound) (ls ++ rest) (as.mapM f) rest := by
  induction h generalizing bound with
  | @last a ls ha =>
    have hpos : 0 < ls.length := List.length_pos_iff.mpr (hP a ls ha)
    obtain ⟨bound, rfl⟩ : ∃ b, bound = b + 1 := ⟨bound - 1, by omega⟩
    have hi := hitem a ls rest ha hF
    cases hf : f a with
    | none =>
      rw [List.mapM_cons, hf]
      exact answers_none_bind (hf ▸ hi)
    | some b =>
      rw [hf] at hi
      rw [List.mapM_cons, hf]
      exact Reads.answers hi (hlast.bind reads_pure)
  | @next a as ls ms l ha hl hs ih =>
    rw [List.length_append, List.length_cons] at hb
    obtain ⟨bound, rfl⟩ : ∃ b, bound = b + 1 := ⟨bound - 1, by omega⟩
    rw [List.append_assoc, List.cons_append]
    have hi := hitem a ls (l :: (ms ++ rest)) ha (hsep l _ hl)
    have hrest := ih bound (by omega)
    cases hf : f a with
    | none =>
      rw [List.mapM_cons, hf]
      exact answers_none_bind (hf ▸ hi)
    | some b =>
      rw [hf] at hi
      rw [List.mapM_cons, hf]
      refine Reads.answers hi ((hnext as l ms hs hl).answers (reads_skip.answers ?_))
      cases hm : as.mapM f with
      | none => exact answers_none_bind (hm ▸ hrest)
      | some bs =>
        rw [hm] at hrest
        exact Reads.bind hrest reads_pure

theorem answers_items (hP : ∀ a ls, P a ls → ls ≠ [])
    (hitem : ∀ a ls rest, P a ls → F rest → Answers item (ls ++ rest) (f a) rest)
    (hsep : ∀ l rest, l.text = sep → F (l :: rest))
    (hnext : ∀ as l ms, SpellsItems sep P as ms → l.text = sep →
      Reads more (l :: (ms ++ rest)) true (l :: (ms ++ rest)))
    (hlast : Reads more rest false rest) (hF : F rest) (h : SpellsItems sep P as ls) :
    Answers (items item more) (ls ++ rest) (as.mapM f) rest := by
  refine answers_get_bind fun ws => answers_itemsTo hP hitem hsep hnext hlast hF h _ ?_
  simp only [List.length_append]
  omega

end Items

end PhpDoc.Parse
