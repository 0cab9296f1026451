import Mathlib.Data.List.TakeWhile
import PhpDoc.Proofs.CommentBlocks
import PhpDoc.Proofs.Lookahead
import PhpDoc.Proofs.Writing
/-!
Cutting a documentation comment again after stretches of it have been replaced. Its parts are the ones
before, with their new texts and without those that are left out.
-/
namespace PhpDoc

/-- A piece of a source text and what stands in its place; nothing at all leaves the piece out. -/
structure Edit where
  piece : Piece
  text : List Char

namespace Edit

def keep (p : Piece) : Edit :=
  ⟨p, p.text⟩

def piece? (e : Edit) : Option Piece :=
  if e.text = [] then none else some ⟨e.piece.kind, e.text⟩

def before (es : List Edit) : List Char :=
  es.flatMap (·.piece.text)

def after (es : List Edit) : List Char :=
  es.flatMap (·.text)

section
variable {e : Edit} {es fs : List Edit} {p : Piece}

theorem piece?_keep (h : p.text ≠ []) : (keep p).piece? = some p :=
  if_neg h

theorem filterMap_keep (h : p.text ≠ []) : (keep p :: es).filterMap piece? = p :: es.filterMap piece? :=
  List.filterMap_cons_some (piece?_keep h)

theorem after_keep : after (keep p :: es) = p.text ++ after es :=
  rfl

theorem map_piece_keep : (keep p :: es).map (·.piece) = p :: es.map (·.piece) :=
  rfl

theorem before_cons : before (e :: es) = e.piece.text ++ before es :=
  rfl

theorem after_cons : after (e :: es) = e.text ++ after es :=
  rfl

theorem before_append : before (es ++ fs) = before es ++ before fs :=
  List.flatMap_append

theorem after_append : after (es ++ fs) = after es ++ after fs :=
  List.flatMap_append

theorem before_eq (es : List Edit) : before es = (es.map (·.piece)).flatMap (·.text) := by
  rw [List.flatMap_map]
  rfl

/-- Pieces that are left out leave no text. -/
theorem after_out (out : List Piece) : after (out.map fun p => ⟨p, []⟩) = [] := by
  induction out with
  | nil => rfl
  | cons p out ih => exact ih

/-- A replaced stretch leaves one piece. -/
theorem filterMap_replace {text : List Char} (h : text ≠ []) (out : List Piece) :
    (⟨p, text⟩ :: (out.map fun q => ⟨q, []⟩) : List Edit).filterMap piece? = [⟨p.kind, text⟩] := by
  have hout : (out.map fun q => (⟨q, []⟩ : Edit)).filterMap piece? = [] := by
    simp [piece?]
  have hfirst : piece? ⟨p, text⟩ = some ⟨p.kind, text⟩ := if_neg h
  rw [List.filterMap_cons_some hfirst, hout]

end

end Edit

/-- A text that may stand in a documentation comment in the place of one that begins with a character:
it is on one line and ends no comment, does not end with a blank, and begins alike or with a
letter like the other. -/
structure Text.Fits (old : Option Char) (s : List Char) : Prop where
  ne_nil : s ≠ []
  line : ∀ c ∈ s, c ≠ '\r' ∧ c ≠ '\n'
  isOpen : Text.IsOpen s
  last : ∀ c ∈ s.getLast?, Piece.isDocBlank c = false
  head : s.head? = old ∨ (s.head?.any Char.isAlpha = true ∧ old.any Char.isAlpha = true)

namespace Piece
open Text (run breakWidth)

variable {atStart : Bool} {c : Char} {cs w rest rest' : List Char} {accepts : Char → Bool} {n : Nat}

theorem isOpen_cons_iff {c : Char} {s : List Char} :
    Text.IsOpen (c :: s) ↔ ¬(c = '*' ∧ s.head? = some '/') ∧ Text.IsOpen s := by
  have hpair : ['*', '/'] <+: c :: s ↔ c = '*' ∧ s.head? = some '/' := by
    cases s <;> simp [eq_comm]
  rw [Text.IsOpen, List.infix_cons_iff, hpair, not_or, Text.IsOpen]

theorem head?_append_take (w rest : List Char) : (w ++ rest.take 1).head? = (w ++ rest).head? := by
  cases w with
  | nil => cases rest <;> rfl
  | cons d w => rfl

theorem beforeEnd_cons {d : Char} {s : List Char} (h : ¬(d = '*' ∧ s.head? = some '/')) :
    beforeEnd accepts (d :: s) = if accepts d then beforeEnd accepts s + 1 else 0 := by
  rw [beforeEnd]
  rintro tail rfl rfl
  exact h ⟨rfl, rfl⟩

theorem beforeEnd_end (s : List Char) : beforeEnd accepts ('*' :: '/' :: s) = 0 :=
  rfl

/-- What comes before the end of a comment goes on over a text that is accepted and ends none. -/
theorem le_beforeEnd_iff : w.length ≤ beforeEnd accepts (w ++ rest) ↔
    (∀ d ∈ w, accepts d = true) ∧ Text.IsOpen (w ++ rest.take 1) := by
  induction w with
  | nil =>
    have hshort : Text.IsOpen (rest.take 1) := by
      intro h
      exact absurd (Nat.le_trans h.length_le (List.length_take_le 1 rest)) (by decide)
    simp [hshort]
  | cons d w ih =>
    rw [List.cons_append, List.cons_append, isOpen_cons_iff, head?_append_take, List.length_cons]
    by_cases hend : d = '*' ∧ (w ++ rest).head? = some '/'
    · obtain ⟨rfl, hslash⟩ := hend
      obtain ⟨tail, htail⟩ := List.head?_eq_some_iff.mp hslash
      rw [htail, beforeEnd_end]
      simp
    · rw [beforeEnd_cons hend]
      by_cases hd : accepts d = true
      · rw [if_pos hd, Nat.add_le_add_iff_right, ih, List.forall_mem_cons]
        exact ⟨fun h => ⟨⟨hd, h.1⟩, hend, h.2⟩, fun h => ⟨h.1.2, h.2.2⟩⟩
      · rw [if_neg hd]
        simp [hd]

theorem beforeEnd_append (h : w.length ≤ beforeEnd accepts (w ++ rest)) :
    beforeEnd accepts (w ++ rest) = w.length + beforeEnd accepts rest := by
  induction w with
  | nil => simp
  | cons d w ih =>
    rw [List.cons_append] at h ⊢
    by_cases hend : d = '*' ∧ (w ++ rest).head? = some '/'
    · obtain ⟨rfl, hslash⟩ := hend
      obtain ⟨tail, htail⟩ := List.head?_eq_some_iff.mp hslash
      rw [htail, beforeEnd_end] at h
      simp at h
    · rw [beforeEnd_cons hend] at h ⊢
      split at h
      · rename_i hd
        rw [if_pos hd, ih (by simpa using h), List.length_cons]
        omega
      · simp at h

def keepsLine (c : Char) : Bool :=
  c != '\r' && c != '\n'

def Closes (s : List Char) : Prop :=
  ∀ d ∈ s.take (beforeEnd keepsLine s), isDocBlank d = true

def textTail (s : List Char) : Nat :=
  ((s.take (beforeEnd keepsLine s)).reverse.dropWhile isDocBlank).length

theorem textTail_le (s : List Char) : textTail s ≤ beforeEnd keepsLine s :=
  length_docText_le s

theorem length_dropWhile_append {p : Char → Bool} (xs ys : List Char) :
    ((xs ++ ys).dropWhile p).length = ys.length ↔
      (∀ x ∈ xs, p x = true) ∧ ∀ y ∈ ys.head?, p y = false := by
  rw [List.dropWhile_append]
  split
  · rename_i hall
    have hxs : ∀ x ∈ xs, p x = true := List.dropWhile_eq_nil_iff.mp (List.isEmpty_iff.mp hall)
    refine ⟨fun h => ⟨hxs, fun y hy => ?_⟩, fun h => ?_⟩
    · obtain ⟨tail, rfl⟩ := List.head?_eq_some_iff.mp hy
      refine Bool.eq_false_iff.mpr fun hp => ?_
      rw [List.dropWhile_cons_of_pos hp] at h
      have := (List.dropWhile_sublist p (l := tail)).length_le
      simp only [List.length_cons] at h
      omega
    · cases ys with
      | nil => rfl
      | cons y ys => rw [List.dropWhile_cons_of_neg (by simp [h.2 y rfl])]
  · rename_i hsome
    refine iff_of_false ?_ fun h => hsome (List.isEmpty_iff.mpr (List.dropWhile_eq_nil_iff.mpr h.1))
    have hpos : 0 < (xs.dropWhile p).length :=
      List.length_pos_iff.mpr fun hnil => hsome (by simp [hnil])
    rw [List.length_append]
    omega

/-- A text is cut off before another one exactly if it is on one line and ends no comment, and nothing
but blanks follows it there. -/
theorem textTail_eq_iff : textTail (w ++ rest) = w.length ↔
    (∀ d ∈ w, keepsLine d = true) ∧ Text.IsOpen (w ++ rest.take 1) ∧
      (∀ d ∈ w.getLast?, isDocBlank d = false) ∧ Closes rest := by
  have hsplit : w.length ≤ beforeEnd keepsLine (w ++ rest) →
      (textTail (w ++ rest) = w.length ↔
        (∀ d ∈ w.getLast?, isDocBlank d = false) ∧ Closes rest) := by
    intro hle
    rw [textTail, beforeEnd_append hle, List.take_length_add_append, List.reverse_append,
      ← @List.length_reverse _ w, length_dropWhile_append, List.head?_reverse, and_comm]
    simp only [List.mem_reverse, Closes]
  rw [← and_assoc, ← le_beforeEnd_iff]
  constructor
  · intro h
    have hle : w.length ≤ beforeEnd keepsLine (w ++ rest) := h ▸ textTail_le (w ++ rest)
    exact ⟨hle, (hsplit hle).mp h⟩
  · rintro ⟨hle, h⟩
    exact (hsplit hle).mpr h

theorem closes_cons_iff {d : Char} {s : List Char} (hend : ¬(d = '*' ∧ s.head? = some '/'))
    (hd : keepsLine d = true) : Closes (d :: s) ↔ isDocBlank d = true ∧ Closes s := by
  rw [Closes, beforeEnd_cons hend, if_pos hd, List.take_succ_cons, List.forall_mem_cons, Closes]

theorem closes_of_break {d : Char} {s : List Char} (hd : keepsLine d = false) : Closes (d :: s) := by
  by_cases hend : d = '*' ∧ s.head? = some '/'
  · rw [hend.1] at hd
    cases hd
  · rw [Closes, beforeEnd_cons hend, hd]
    simp

theorem closes_end (s : List Char) : Closes ('*' :: '/' :: s) := by
  simp [Closes, beforeEnd_end]

/-- A text in a comment that may follow where another one did: it begins alike, or with a letter like
it, and ends the line or the comment where the other one does. -/
structure Follows (old new : List Char) : Prop where
  head : new.head? = old.head? ∨
    (new.head?.any Char.isAlpha = true ∧ old.head?.any Char.isAlpha = true)
  close : new.take 2 = ['*', '/'] ↔ old.take 2 = ['*', '/']
  closes : Closes old → Closes new

namespace Follows
variable {old new : List Char}

theorem refl (s : List Char) : Follows s s :=
  ⟨.inl rfl, Iff.rfl, id⟩

/-- A character that is no letter begins the one text if it begins the other. -/
theorem head_iff (h : Follows old new) {d : Char} (hd : d.isAlpha = false) :
    new.head? = some d ↔ old.head? = some d := by
  rcases h.head with he | ⟨hnew, hold⟩
  · rw [he]
  · constructor <;> intro he
    · rw [he, Option.any_some, hd] at hnew
      cases hnew
    · rw [he, Option.any_some, hd] at hold
      cases hold

theorem head?_any (h : Follows old new) {p : Char → Bool} (hp : ∀ d, d.isAlpha = true → p d = false) :
    new.head?.any p = old.head?.any p := by
  rcases h.head with he | ⟨hnew, hold⟩
  · rw [he]
  · obtain ⟨d, hd, hdalpha⟩ := (Option.any_eq_true _ _).mp hnew
    obtain ⟨e, he, healpha⟩ := (Option.any_eq_true _ _).mp hold
    rw [hd, he, Option.any_some, Option.any_some, hp d hdalpha, hp e healpha]

end Follows

theorem take_two_cons {d e f : Char} {s : List Char} :
    (d :: s).take 2 = [e, f] ↔ d = e ∧ s.head? = some f := by
  cases s <;> simp

theorem follows_append {old new : List Char} (h : Follows old new) (s : List Char) :
    Follows (s ++ old) (s ++ new) := by
  induction s with
  | nil => exact h
  | cons d s ih =>
    have hslash := ih.head_iff (d := '/') (by decide)
    refine ⟨.inl rfl, ?_, ?_⟩
    · rw [List.cons_append, List.cons_append, take_two_cons, take_two_cons, hslash]
    · rw [List.cons_append, List.cons_append]
      intro hcloses
      by_cases hend : d = '*' ∧ (s ++ old).head? = some '/'
      · obtain ⟨rfl, hhead⟩ := hend
        obtain ⟨tail, htail⟩ := List.head?_eq_some_iff.mp (hslash.mpr hhead)
        rw [htail]
        exact closes_end tail
      · cases hd : keepsLine d with
        | false => exact closes_of_break hd
        | true =>
          rw [closes_cons_iff hend hd] at hcloses
          exact (closes_cons_iff (mt (fun h => ⟨h.1, hslash.mp h.2⟩) hend) hd).mpr
            ⟨hcloses.1, ih.closes hcloses.2⟩

theorem docTail_eq (atStart : Bool) (c : Char) (cs : List Char) : docTail atStart c cs =
    if c = '*' ∧ cs.head? = some '/' then (.docClose, 1)
    else if 0 < breakWidth (c :: cs) then (.docBlank, breakWidth (c :: cs) - 1)
    else if isDocBlank c then (.docBlank, run isDocBlank cs)
    else if atStart ∧ c = '*' then (.docStar, 0)
    else if c = '@' then (.docTag, beforeEnd (fun d => !Text.isBlank d) cs)
    else (.docText, textTail cs) :=
  rfl

/-- What the first character of a text in a comment is, and how far the text goes on. -/
theorem docTail_text {n : Nat} (h : docTail atStart c cs = (.docText, n)) :
    (¬(c = '*' ∧ cs.head? = some '/') ∧ keepsLine c = true ∧ isDocBlank c = false ∧
      ¬(atStart = true ∧ c = '*') ∧ c ≠ '@') ∧ textTail cs = n := by
  rw [docTail_eq] at h
  split at h
  · cases h
  · rename_i hend
    split at h
    · cases h
    · rename_i hbreak
      split at h
      · cases h
      · rename_i hblank
        split at h
        · cases h
        · rename_i hstar
          split at h
          · cases h
          · rename_i hat
            rw [Text.breakWidth_pos, not_or] at hbreak
            exact ⟨⟨hend, by simpa [keepsLine] using hbreak, Bool.eq_false_iff.mpr hblank, hstar, hat⟩,
              (Prod.mk.inj h).2⟩

/-- A letter is no blank and stands for itself in a comment. -/
theorem plain_of_isAlpha {d : Char} (hd : d.isAlpha = true) :
    isDocBlank d = false ∧ Text.isBlank d = false ∧ keepsLine d = true ∧ d ≠ '*' ∧ d ≠ '@' := by
  have hbounds : 65 ≤ d.toNat ∧ d.toNat ≤ 122 := by
    rw [Lexing.isAlpha_eq, Bool.or_eq_true, Lexing.isUpper_iff, Lexing.isLower_iff] at hd
    omega
  have hne : ∀ e : Char, e.toNat < 65 → d ≠ e := by
    rintro e he rfl
    omega
  refine ⟨?_, ?_, ?_, hne _ (by decide), hne _ (by decide)⟩
  · simp [isDocBlank, hne]
  · rw [Text.isBlank, Bool.or_eq_false_iff]
    refine ⟨Bool.eq_false_iff.mpr fun hw => ?_, by simp; omega⟩
    have := Lexing.bounds_of_isWhiteSpace hw
    omega
  · simp [keepsLine, hne]

theorem isOpen_append_take : Text.IsOpen (w ++ rest.take 1) ↔
    Text.IsOpen w ∧ ¬(w.getLast? = some '*' ∧ rest.head? = some '/') := by
  have hshort : ¬['*', '/'] <:+: rest.take 1 := fun h =>
    absurd (Nat.le_trans h.length_le (List.length_take_le 1 rest)) (by decide)
  have hhead : (rest.take 1).head? = rest.head? := by cases rest <;> rfl
  rw [Text.IsOpen, Text.closes_append, hhead, not_or, not_or, Text.IsOpen]
  exact ⟨fun h => ⟨h.1, h.2.2⟩, fun h => ⟨h.1, hshort, h.2⟩⟩

/-- A text that may follow another one leaves the end of a comment where it was. -/
theorem isOpen_follows (h : Text.IsOpen (w ++ rest.take 1)) (hf : Follows rest rest') :
    Text.IsOpen (w ++ rest'.take 1) := by
  rw [isOpen_append_take] at h ⊢
  rwa [hf.head_iff (by decide)]

theorem beforeEnd_eq_zero : beforeEnd accepts rest = 0 ↔
    rest.take 2 = ['*', '/'] ∨ rest.head?.any accepts = false := by
  cases rest with
  | nil => simp [beforeEnd]
  | cons d s =>
    by_cases hend : d = '*' ∧ s.head? = some '/'
    · obtain ⟨rfl, hslash⟩ := hend
      obtain ⟨tail, rfl⟩ := List.head?_eq_some_iff.mp hslash
      simp [beforeEnd_end]
    · have htwo : (d :: s).take 2 ≠ ['*', '/'] := by
        intro h
        cases s with
        | nil => simp at h
        | cons e s => exact hend (by simpa using h)
      rw [beforeEnd_cons hend]
      rw [List.head?_cons, Option.any_some]
      cases accepts d with
      | true => simpa using htwo
      | false => simp

/-- What may follow a text leaves the width of a line break. -/
theorem breakWidth_follows {old new : List Char} (h : Follows old new) :
    breakWidth (c :: new) = breakWidth (c :: old) := by
  by_cases hc : c = '\r'
  · have hfeed := h.head_iff (d := '\n') (by decide)
    subst hc
    simp only [Text.breakWidth_return, hfeed]
  · rw [Text.breakWidth_other hc, Text.breakWidth_other hc]

/-- A part of a comment is cut off in the same way before a text that may follow it. -/
theorem docTail_follows {kind : Kind} (h : docTail atStart c (w ++ rest) = (kind, w.length))
    (hf : Follows rest rest') : docTail atStart c (w ++ rest') = (kind, w.length) := by
  have hall := follows_append hf w
  have hbreak := breakWidth_follows (c := c) hall
  have hclose : (c = '*' ∧ (w ++ rest').head? = some '/') ↔
      (c = '*' ∧ (w ++ rest).head? = some '/') :=
    and_congr_right fun _ => hall.head_iff (by decide)
  rw [docTail_eq] at h ⊢
  simp only [hclose, hbreak]
  split
  · rename_i hend
    rwa [if_pos hend] at h
  · rename_i hend
    rw [if_neg hend] at h
    split
    · rename_i hpos
      rwa [if_pos hpos] at h
    · rename_i hpos
      rw [if_neg hpos] at h
      split
      · rename_i hblank
        rw [if_pos hblank] at h
        obtain ⟨rfl, hrun⟩ := Prod.mk.inj h
        rw [Lexing.run_append] at hrun
        rw [Lexing.run_append.mpr
          ⟨hrun.1, (hf.head?_any fun d hd => (plain_of_isAlpha hd).1).trans hrun.2⟩]
      · rename_i hblank
        rw [if_neg hblank] at h
        split
        · rename_i hstar
          rwa [if_pos hstar] at h
        · rename_i hstar
          rw [if_neg hstar] at h
          split
          · rename_i hat
            rw [if_pos hat] at h
            obtain ⟨rfl, htag⟩ := Prod.mk.inj h
            have hle := Nat.le_of_eq htag.symm
            obtain ⟨haccepts, hopen⟩ := le_beforeEnd_iff.mp hle
            have hzero := beforeEnd_append hle
            have hle' := le_beforeEnd_iff.mpr ⟨haccepts, isOpen_follows hopen hf⟩
            rw [htag, eq_comm, Nat.add_eq_left, beforeEnd_eq_zero] at hzero
            rw [beforeEnd_append hle', beforeEnd_eq_zero.mpr, Nat.add_zero]
            rcases hzero with hend | hblank
            · exact .inl (hf.close.mpr hend)
            · rcases hf.head with he | ⟨-, hold⟩
              · exact .inr (he ▸ hblank)
              · obtain ⟨e, he, hletter⟩ := (Option.any_eq_true _ _).mp hold
                rw [he, Option.any_some, (plain_of_isAlpha hletter).2.1] at hblank
                cases hblank
          · rename_i hat
            rw [if_neg hat] at h
            obtain ⟨rfl, htext⟩ := Prod.mk.inj h
            obtain ⟨hline, hopen, hlast, hcloses⟩ := textTail_eq_iff.mp htext
            rw [textTail_eq_iff.mpr ⟨hline, isOpen_follows hopen hf, hlast, hf.closes hcloses⟩]

/-- A text in the place of a text of a comment. -/
theorem docTail_fits {s : List Char} {n : Nat} (h : docTail atStart c cs = (.docText, n))
    (hs : Text.Fits (some c) s) (hrest : Closes rest) :
    ∃ d t, s = d :: t ∧ docTail atStart d (t ++ rest) = (.docText, t.length) := by
  obtain ⟨d, t, rfl⟩ := List.exists_cons_of_ne_nil hs.ne_nil
  refine ⟨d, t, rfl, ?_⟩
  have hplain : isDocBlank d = false ∧ ¬(atStart = true ∧ d = '*') ∧ d ≠ '@' := by
    rcases hs.head with he | ⟨hd, -⟩
    · obtain rfl : d = c := Option.some.inj he
      exact (docTail_text h).1.2.2
    · obtain ⟨hblank, -, -, hstar, hat⟩ := plain_of_isAlpha hd
      exact ⟨hblank, fun h => hstar h.2, hat⟩
  have hslash : rest.head? ≠ some '/' := by
    intro hhead
    obtain ⟨tail, rfl⟩ := List.head?_eq_some_iff.mp hhead
    have hblank := ((closes_cons_iff (by simp) (by decide)).mp hrest).1
    cases hblank
  obtain ⟨hblank, hstar, hat⟩ := hplain
  have hline := List.forall_mem_cons.mp hs.line
  obtain ⟨hfirst, hopen⟩ := isOpen_cons_iff.mp hs.isOpen
  have hend : ¬(d = '*' ∧ (t ++ rest).head? = some '/') := by
    rintro ⟨hd, hhead⟩
    cases t with
    | nil => exact hslash hhead
    | cons e t => exact hfirst ⟨hd, hhead⟩
  have hbreak : ¬0 < breakWidth (d :: (t ++ rest)) := by
    rw [Text.breakWidth_pos]
    rintro (hd | hd)
    · exact hline.1.1 hd
    · exact hline.1.2 hd
  have htext : textTail (t ++ rest) = t.length := by
    refine textTail_eq_iff.mpr ⟨fun e he => ?_, ?_, fun e he => ?_, hrest⟩
    · simp [keepsLine, hline.2 e he]
    · exact isOpen_append_take.mpr ⟨hopen, fun h => hslash h.2⟩
    · refine hs.last e ?_
      rw [List.getLast?_cons, Option.mem_def.mp he]
      rfl
  rw [docTail_eq, if_neg hend, if_neg hbreak, if_neg (by simp [hblank]), if_neg hstar, if_neg hat,
    htext]

end Piece

namespace Edit

/-- Edits of consecutive pieces that replace stretches of tags: `last` is the kind of the piece before
them. A stretch begins and ends with a text, is not the first thing in a comment, and comes down
to a single text. -/
inductive Mends : Kind → List Edit → Prop
  | nil (last : Kind) : Mends last []
  | keep (last : Kind) (p : Piece) {es : List Edit} (rest : Mends p.kind es) :
    Mends last (.keep p :: es)
  | replace {last : Kind} (first : Piece) (out : List Piece) {text : List Char} {es : List Edit}
    (inside : last.isInner = true) (kind : first.kind = .docText)
    (fits : Text.Fits first.text.head? text) (body : ∀ p ∈ out, p.kind.isBody = true)
    (end_text : ∀ p ∈ out.getLast?, p.kind = .docText) (rest : Mends .docText es) :
    Mends last (⟨first, text⟩ :: (out.map fun p => ⟨p, []⟩) ++ es)

end Edit

namespace Piece
open Edit (Mends before after piece?)

variable {atStart : Bool} {kind last : Kind} {c : Char} {cs w rest : List Char} {es : List Edit}

def nextStart (atStart : Bool) (kind : Kind) (cs : List Char) : Bool :=
  if kind = .docBlank then atStart || 0 < Text.breakWidth cs else false

theorem docParts_of_docTail (h : docTail atStart c (w ++ rest) = (kind, w.length)) :
    docParts atStart (c :: (w ++ rest)) = ⟨kind, c :: w⟩ ::
      if kind = .docClose then [] else docParts (nextStart atStart kind (c :: (w ++ rest))) rest := by
  rw [docParts, h]
  simp only [List.take_left, List.drop_left]
  rfl

theorem docTail_le {n : Nat} (h : docTail atStart c cs = (kind, n)) : n ≤ cs.length := by
  have hbefore : ∀ accepts cs, beforeEnd accepts cs ≤ cs.length := by
    intro accepts cs
    fun_induction beforeEnd accepts cs <;> simp_all
  cases docTail_cut h with
  | close rest _ hcs => simp [hcs]
  | lineBreak =>
    by_cases hc : c = '\r'
    · subst hc
      rw [Text.breakWidth_return]
      split
      · cases cs <;> simp_all
      · simp
    · rw [Text.breakWidth_other hc]
      split <;> simp
  | blank => exact Text.run_le_length _ _
  | star => simp
  | tag => exact hbefore _ _
  | text => exact Nat.le_trans (length_docText_le cs) (hbefore _ _)

/-- The first part of a comment and the parts after it. -/
theorem docParts_cons (h : docParts atStart cs = p :: ps)
    (hcs : (p :: ps).flatMap (·.text) = cs) : ∃ c w, p = ⟨p.kind, c :: w⟩ ∧
      cs = c :: (w ++ ps.flatMap (·.text)) ∧
      docTail atStart c (w ++ ps.flatMap (·.text)) = (p.kind, w.length) ∧
      ps = if p.kind = .docClose then [] else
        docParts (nextStart atStart p.kind cs) (ps.flatMap (·.text)) := by
  cases cs with
  | nil =>
    rw [docParts] at h
    cases h
  | cons c cs =>
    rw [docParts] at h
    cases htail : docTail atStart c cs with | mk kind n =>
    rw [htail] at h
    obtain ⟨rfl, hps⟩ := List.cons.inj h
    rw [List.flatMap_cons, List.cons_append] at hcs
    have hrest := (List.cons.inj hcs).2
    have hdrop : ps.flatMap (·.text) = cs.drop n :=
      List.append_cancel_left (hrest.trans (List.take_append_drop n cs).symm)
    refine ⟨c, cs.take n, rfl, by rw [hrest], ?_, ?_⟩
    · rw [hrest, htail, List.length_take_of_le (docTail_le htail)]
    · rw [hdrop, ← hps]
      rfl

/-- After a text of a comment its parts go on as after any other, and nothing but blanks is left of
the line. -/
theorem docParts_after_text (h : docParts atStart cs = ps ++ p :: qs)
    (hp : p.kind = .docText) (hcs : (ps ++ p :: qs).flatMap (·.text) = cs) :
    docParts false (qs.flatMap (·.text)) = qs ∧ Closes (qs.flatMap (·.text)) := by
  induction ps generalizing atStart cs with
  | nil =>
    obtain ⟨c, w, -, rfl, htail, hqs⟩ := docParts_cons h hcs
    rw [hp] at htail hqs
    exact ⟨hqs.symm, (textTail_eq_iff.mp (docTail_text htail).2).2.2.2⟩
  | cons q ps ih =>
    obtain ⟨c, w, -, rfl, -, hps⟩ := docParts_cons h hcs
    split at hps
    · cases ps <;> cases hps
    · exact ih hps.symm rfl

/-- What follows a part decides alike what may come first on its line. -/
theorem nextStart_follows (hf : Follows rest rest') :
    nextStart atStart kind (c :: (w ++ rest')) = nextStart atStart kind (c :: (w ++ rest)) := by
  rw [nextStart, nextStart, breakWidth_follows (follows_append hf w)]

/-- The end of a comment is its last part, whatever comes after it. -/
theorem docParts_close {tail : List Char} (h : docParts atStart cs = p :: ps)
    (hcs : (p :: ps).flatMap (·.text) = cs) (hp : p.kind = .docClose) :
    ps = [] ∧ docParts atStart (p.text ++ tail) = [p] ∧ Follows cs (p.text ++ tail) := by
  obtain ⟨c, w, hpiece, rfl, hcut, hps⟩ := docParts_cons h hcs
  rw [if_pos hp] at hps
  rw [hp] at hcut
  obtain ⟨rfl, hone, rest, hw⟩ := docTail_close hcut
  obtain rfl : w = ['/'] := by
    obtain ⟨d, rfl⟩ := List.length_eq_one_iff.mp hone
    rw [(List.cons.inj hw).1]
  have hcut' : docTail atStart '*' (['/'] ++ tail) = (.docClose, ['/'].length) := rfl
  rw [hpiece, hp]
  exact ⟨hps, docParts_of_docTail hcut', .inl rfl, by simp, fun _ => closes_end tail⟩

/-- A part that does not end a comment, before a text that may follow it. -/
theorem docParts_keep (h : docParts atStart cs = p :: ps) (hcs : (p :: ps).flatMap (·.text) = cs)
    (hp : p.kind ≠ .docClose) :
    docParts (nextStart atStart p.kind cs) (ps.flatMap (·.text)) = ps ∧
      ∀ rest', Follows (ps.flatMap (·.text)) rest' →
        docParts atStart (p.text ++ rest') =
          p :: docParts (nextStart atStart p.kind cs) rest' ∧ Follows cs (p.text ++ rest') := by
  obtain ⟨c, w, hpiece, rfl, hcut, hps⟩ := docParts_cons h hcs
  rw [if_neg hp] at hps
  refine ⟨hps.symm, fun rest' hf => ?_⟩
  have htext : p.text = c :: w := by rw [hpiece]
  rw [htext, List.cons_append, docParts_of_docTail (docTail_follows hcut hf), if_neg hp,
    nextStart_follows hf, ← hpiece]
  exact ⟨rfl, follows_append hf (c :: w)⟩

/-- A stretch that begins and ends with a text gives way to a single text. -/
theorem docParts_replace {out : List Piece} {text : List Char}
    (h : docParts atStart cs = p :: out ++ ps) (hcs : (p :: out ++ ps).flatMap (·.text) = cs)
    (hp : p.kind = .docText) (hlast : ∀ q ∈ out.getLast?, q.kind = .docText)
    (fits : Text.Fits p.text.head? text) :
    docParts false (ps.flatMap (·.text)) = ps ∧
      ∀ rest', Follows (ps.flatMap (·.text)) rest' →
        docParts atStart (text ++ rest') = ⟨.docText, text⟩ :: docParts false rest' ∧
          Follows cs (text ++ rest') := by
  obtain ⟨init, q, hsplit, hq⟩ : ∃ init q, p :: out = init ++ [q] ∧ q.kind = .docText := by
    rcases List.eq_nil_or_concat out with rfl | ⟨init, q, rfl⟩
    · exact ⟨[], p, rfl, hp⟩
    · exact ⟨p :: init, q, by simp, hlast q (by simp)⟩
  have hall : p :: out ++ ps = init ++ q :: ps := by
    rw [hsplit, List.append_assoc]
    rfl
  obtain ⟨hrest, hcloses⟩ := docParts_after_text (h.trans hall) hq (hall ▸ hcs)
  refine ⟨hrest, fun rest' hf => ?_⟩
  obtain ⟨c, w, hpiece, rfl, hcut, -⟩ := docParts_cons h hcs
  rw [hp] at hcut
  rw [hpiece, List.head?_cons] at fits
  obtain ⟨d, t, rfl, hcut'⟩ := docTail_fits hcut fits (hf.closes hcloses)
  obtain ⟨⟨hend, hline, hblank, -⟩, -⟩ := docTail_text hcut
  obtain ⟨⟨hend', -⟩, -⟩ := docTail_text hcut'
  rw [List.cons_append, docParts_of_docTail hcut', if_neg (by decide)]
  refine ⟨rfl, fits.head, ?_, ?_⟩
  · rw [take_two_cons, take_two_cons]
    exact iff_of_false hend' hend
  · intro hold
    rw [closes_cons_iff hend hline, hblank] at hold
    cases hold.1

/-- The kind of the last of some pieces is that of the last of all, unless they are none. -/
theorem getLast?_kind {ps qs : List Piece} {k : Kind}
    (h : (ps ++ qs).getLast?.map (·.kind) = some k) (hps : ∀ p ∈ ps.getLast?, p.kind ≠ k) :
    qs.getLast?.map (·.kind) = some k := by
  rw [List.getLast?_append] at h
  cases hqs : qs.getLast? with
  | none =>
    rw [hqs, Option.none_or] at h
    obtain ⟨p, hp, hk⟩ := Option.map_eq_some_iff.mp h
    exact absurd hk (hps p hp)
  | some q => rwa [hqs] at h

/-- The parts of a comment after edits are the parts before with their new texts. A comment that has
an end may have anything after it. -/
theorem docParts_mends {tail : List Char} (hm : Mends last es)
    (hes : docParts atStart (before es) = es.map (·.piece))
    (htail : tail = [] ∨ (es.map (·.piece)).getLast?.map (·.kind) = some .docClose) :
    docParts atStart (after es ++ tail) = es.filterMap piece? ∧
      Follows (before es) (after es ++ tail) := by
  induction hm generalizing atStart with
  | nil last =>
    obtain rfl : tail = [] := htail.resolve_right (by simp)
    exact ⟨hes, .refl []⟩
  | @keep last p es hm ih =>
    have hcover := (Edit.before_eq (.keep p :: es)).symm
    rw [Edit.map_piece_keep] at hes hcover htail
    have hne : p.text ≠ [] := by
      obtain ⟨c, w, hp, -⟩ := docParts_cons hes hcover
      rw [hp]
      exact List.cons_ne_nil c w
    rw [Edit.after_keep, List.append_assoc, Edit.filterMap_keep hne]
    by_cases hclose : p.kind = .docClose
    · obtain ⟨hnil, hend⟩ := docParts_close hes hcover hclose
      obtain rfl := List.map_eq_nil_iff.mp hnil
      exact hend
    · obtain ⟨hrest, hkeep⟩ := docParts_keep hes hcover hclose
      rw [← Edit.before_eq] at hrest hkeep
      obtain ⟨hparts, hfollows⟩ := ih hrest <| htail.imp_right fun h =>
        @getLast?_kind [p] _ _ h (by simpa using hclose)
      rw [← hparts]
      exact hkeep _ hfollows
  | @replace last first out text es inside kind fits body end_text hm ih =>
    have hpieces : ((⟨first, text⟩ :: (out.map fun p => ⟨p, []⟩) ++ es : List Edit).map (·.piece)) =
        first :: out ++ es.map (·.piece) := by
      simp [Function.comp_def]
    have hcover := (Edit.before_eq (⟨first, text⟩ :: (out.map fun p => ⟨p, []⟩) ++ es)).symm
    rw [hpieces] at hes hcover htail
    have hkept : (⟨first, text⟩ :: (out.map fun p => ⟨p, []⟩) ++ es : List Edit).filterMap piece? =
        ⟨.docText, text⟩ :: es.filterMap piece? := by
      rw [List.filterMap_append, Edit.filterMap_replace fits.ne_nil, kind]
      rfl
    have hafter : after ((⟨first, text⟩ :: (out.map fun p => ⟨p, []⟩) ++ es : List Edit)) ++ tail =
        text ++ (after es ++ tail) := by
      rw [List.cons_append, Edit.after_cons, Edit.after_append, Edit.after_out]
      simp
    obtain ⟨hrest, hreplace⟩ := docParts_replace hes hcover kind end_text fits
    rw [← Edit.before_eq] at hrest hreplace
    obtain ⟨hparts, hfollows⟩ := ih hrest <| htail.imp_right fun h =>
      getLast?_kind h fun p hp => by
        rw [List.getLast?_cons] at hp
        obtain rfl := Option.some.inj hp
        cases hout : out.getLast? with
        | none => simp [kind]
        | some q => simp [end_text q hout]
    rw [hkept, hafter, ← hparts]
    exact hreplace _ hfollows

theorem isOpen_take_of_ne {n : Nat} (h : ∀ d ∈ cs.take n, d ≠ '*') :
    Text.IsOpen (cs.take (n + 1)) := by
  induction cs generalizing n with
  | nil => simp [Text.IsOpen]
  | cons d cs ih =>
    cases n with
    | zero =>
      intro hinfix
      exact absurd hinfix.length_le (by simp)
    | succ n =>
      rw [List.take_succ_cons, List.forall_mem_cons] at h
      rw [List.take_succ_cons, isOpen_cons_iff]
      exact ⟨fun hend => h.1 hend.1, ih h.2⟩

theorem isOpen_take_beforeEnd {accepts : Char → Bool} {n : Nat} (h : n ≤ beforeEnd accepts cs) :
    Text.IsOpen (cs.take (n + 1)) := by
  by_cases hn : n ≤ cs.length
  · have hle : (cs.take n).length ≤ beforeEnd accepts (cs.take n ++ cs.drop n) := by
      rw [List.take_append_drop, List.length_take_of_le hn]
      exact h
    rw [List.take_add]
    exact (le_beforeEnd_iff.mp hle).2
  · have := isOpen_beforeEnd h
    rwa [List.take_of_length_le (by omega)] at this ⊢

/-- No part but the closer takes a character of the end of a comment, and none ends before its
second one. -/
theorem docTail_open {n : Nat} (h : docTail atStart c cs = (kind, n)) (hk : kind ≠ .docClose) :
    Text.IsOpen (c :: cs.take (n + 1)) := by
  have hfirst : ¬(c = '*' ∧ (cs.take (n + 1)).head? = some '/') := by
    rw [List.head?_take, if_neg (Nat.succ_ne_zero n)]
    exact fun hend => hk (kind_of_end h hend.1 hend.2)
  refine isOpen_cons_iff.mpr ⟨hfirst, ?_⟩
  cases docTail_cut h with
  | close => exact absurd rfl hk
  | lineBreak hbreak =>
    refine isOpen_take_of_ne fun d hd => ?_
    have hmem := List.mem_cons_of_mem c hd
    rintro rfl
    have hwidth := take_breakWidth hbreak
    simp only [List.mem_cons, List.not_mem_nil, or_false] at hwidth
    rcases hwidth with h | h | h <;> rw [h] at hmem <;> revert hmem <;> decide
  | blank =>
    refine isOpen_take_of_ne fun d hd => ?_
    rintro rfl
    exact absurd (Text.mem_take_run hd) (by decide)
  | star => exact isOpen_take_of_ne (by simp)
  | tag => exact isOpen_take_beforeEnd (Nat.le_refl _)
  | text => exact isOpen_take_beforeEnd (length_docText_le cs)

theorem commentTail_of_isOpen {n : Nat} (hn : n ≤ cs.length) (h : Text.IsOpen (cs.take (n + 1))) :
    commentTail cs = n + commentTail (cs.drop n) := by
  induction n generalizing cs with
  | zero => simp
  | succ n ih =>
    cases cs with
    | nil => cases hn
    | cons d cs =>
      rw [List.take_succ_cons, isOpen_cons_iff, List.head?_take, if_neg (Nat.succ_ne_zero n)] at h
      rw [commentTail.eq_2, List.drop_succ_cons, ih (Nat.le_of_succ_le_succ hn) h.2]
      · omega
      · rintro rest rfl rfl
        exact h.1 ⟨rfl, rfl⟩

/-- The parts of a comment are its text up to its end. -/
theorem length_docParts (atStart : Bool) (cs : List Char) :
    ((docParts atStart cs).flatMap (·.text)).length = commentTail cs := by
  fun_induction docParts atStart cs with
  | case1 => rfl
  | case2 atStart c cs kind n hd next ih =>
    rw [List.flatMap_cons, List.length_append]
    by_cases hk : kind = .docClose
    · subst hk
      obtain ⟨rfl, rfl, rest, rfl⟩ := docTail_close hd
      rfl
    · rw [if_neg hk, ih, List.length_cons, List.length_take_of_le (docTail_le hd)]
      exact (@commentTail_of_isOpen (c :: cs) _ (Nat.succ_le_succ (docTail_le hd))
        (by simpa using docTail_open hd hk)).symm

end Piece
end PhpDoc
