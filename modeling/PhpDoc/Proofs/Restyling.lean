import Mathlib.Data.List.Nodup
import PhpDoc.Proofs.RespelledText
/-!
A tag whose type is put in its recommended spelling. It says what it said before, unless the last word
of the type is `integer` and an angle bracket follows.
-/
namespace PhpDoc
open Lexing

namespace TypedTag
variable {c : Context} {e : Extent} {text : List Char} {s after : Reader} {reading : Reading}

theorem respell_of_mem {words : List Nat} {l : Lexeme} (h : l.start ∈ words) :
    respell words l = Words.respell l.text :=
  if_pos (List.contains_iff_mem.mpr h)

theorem respell_of_not_mem {words : List Nat} {l : Lexeme} (h : l.start ∉ words) :
    respell words l = l.text :=
  if_neg fun hc => h (List.contains_iff_mem.mp hc)

/-- Lexemes that were respelled where they were noted are in their recommended spelling. -/
theorem settled_lexemes {words : List Nat} {place : Nat → Nat} {ls : List Lexeme}
    (hn : ((ls.map (Respelling.lexeme ⟨words, place⟩)).map Lexeme.start).Nodup)
    (hw : ∀ w ∈ words, ∃ l ∈ ls, l.start = w) :
    ∀ l ∈ ls.map (Respelling.lexeme ⟨words, place⟩), respell (words.map place) l = l.text := by
  rw [List.map_map] at hn
  intro l hl
  obtain ⟨k, hk, rfl⟩ := List.mem_map.mp hl
  by_cases hin : place k.start ∈ words.map place
  · obtain ⟨w, hm, he⟩ := List.mem_map.mp hin
    obtain ⟨k', hk', rfl⟩ := hw w hm
    obtain rfl : k' = k := List.inj_on_of_nodup_map hn hk' hk he
    have htext : (Respelling.lexeme ⟨words, place⟩ k').text = Words.respell k'.text :=
      respell_of_mem hm
    rw [respell_of_mem hin, htext, Words.respell_respell]
  · exact respell_of_not_mem hin

theorem readType_eq_ok : readType c text e s = .ok (reading, after) ↔ ∃ first others,
    Grammar.type c s = .ok (reading.type, after) ∧
    s.rest.take (s.rest.length - after.rest.length) = first :: others ∧
    endsType e after.rest.head? = true ∧ reading.spelled = spell text after.words (first :: others) ∧
    reading.span = (first.start, ((first :: others).getLast?.map Lexeme.stop).getD first.stop) := by
  unfold readType
  cases ht : Grammar.type c s with
  | error f => simp
  | ok p =>
    obtain ⟨t, u⟩ := p
    simp only
    obtain ⟨type, spelled, span⟩ := reading
    split
    · next first others hread hend =>
      simp only [hread, Except.ok.injEq, Prod.mk.injEq, Reading.mk.injEq]
      constructor
      · rintro ⟨⟨rfl, rfl, rfl⟩, rfl⟩
        exact ⟨first, others, ⟨rfl, rfl⟩, hread, hend, rfl, rfl⟩
      · rintro ⟨first', others', ⟨rfl, rfl⟩, hread', -, rfl, rfl⟩
        obtain ⟨rfl, rfl⟩ := List.cons.inj (hread.symm.trans hread')
        exact ⟨⟨rfl, rfl, rfl⟩, rfl⟩
    · next hno =>
      refine iff_of_false (by simp) ?_
      rintro ⟨first, others, he, hread, hend, -, -⟩
      cases he
      exact hno first others hread hend

structure Ahead (text : List Char) (stop m : Nat) (ls : List Lexeme) (ds : List Char) (rest : Lexing) :
    Prop where
  drop : text.drop m = ds
  lexemes : ls = rest.lexemes.map (shift m)
  stop : stop = rest.stop + m

def sign (e : Extent) (text : String) (s : Reader) : String × Reader :=
  match s.rest with
  | l :: rest => if e.hasModifiers && l.text == text then (text, { s with rest }) else ("", s)
  | [] => ("", s)

theorem readVariable_eq (e : Extent) (s : Reader) : readVariable e s =
    match (sign e "..." (sign e "&" s).2).2.rest with
    | l :: rest =>
      if l.kind == .variable && (isDelimited rest.head? ||
        (e == .default && rest.head?.any fun l => l.text == "=")) then
        some ((l.text, (sign e "&" s).1 ++ (sign e "..." (sign e "&" s).2).1),
          { (sign e "..." (sign e "&" s).2).2 with rest })
      else none
    | [] => none :=
  rfl

def moved (m : Nat) (words : List Nat) (s : Reader) : Reader :=
  ⟨s.rest.map (shift m), words⟩

variable {m : Nat} {words : List Nat} {x : String}

theorem sign_moved : sign e x (moved m words s) = ((sign e x s).1, moved m words (sign e x s).2) := by
  obtain ⟨rest, noted⟩ := s
  cases rest with
  | nil => rfl
  | cons l rest =>
    simp only [sign, moved, List.map_cons, shift]
    split
    · rfl
    · rfl

theorem isDelimited_shift (o : Option Lexeme) :
    isDelimited (o.map (shift m)) = isDelimited o := by
  cases o with
  | none => rfl
  | some l => rfl

theorem endsType_shift (o : Option Lexeme) :
    endsType e (o.map (shift m)) = endsType e o := by
  cases o with
  | none => rfl
  | some l => rfl

theorem readVariable_moved : readVariable e (moved m words s) =
    (readVariable e s).map fun p => (p.1, moved m words p.2) := by
  have hequal : ∀ o : Option Lexeme, (o.map (shift m)).any (fun l => l.text == "=") =
      o.any fun l => l.text == "=" := by
    intro o
    cases o with
    | none => rfl
    | some l => rfl
  rw [readVariable_eq, readVariable_eq, sign_moved, sign_moved]
  obtain ⟨ampersand, s₁⟩ := sign e "&" s
  obtain ⟨dots, rest, noted⟩ := sign e "..." s₁
  cases rest with
  | nil => rfl
  | cons l rest =>
    simp only [moved, List.map_cons, List.head?_map, isDelimited_shift, hequal, shift]
    split
    · rfl
    · rfl

theorem seesNullDefault_moved : seesNullDefault (moved m words s) = seesNullDefault s := by
  obtain ⟨rest, noted⟩ := s
  match rest with
  | [] => rfl
  | [_] => rfl
  | _ :: _ :: _ => rfl

theorem remainderOf_moved {ds : List Char} (hd : text.drop m = ds) (stop : Nat) :
    remainderOf text (stop + m) (moved m words s) = remainderOf ds stop s := by
  obtain ⟨rest, noted⟩ := s
  unfold remainderOf
  rw [← hd, List.drop_drop, Nat.add_comm m]
  cases rest with
  | nil => rfl
  | cons l rest => rfl

def completed (c : Context) (e : Extent) (reading : Reading) (ds : List Char) (rest : Lexing) :
    TypedTag :=
  let target := if e.hasVariable then readVariable e ⟨rest.lexemes, []⟩ else none
  let after := (target.map (·.2)).getD ⟨rest.lexemes, []⟩
  { type := some <|
      if e == .default && target.isSome && seesNullDefault after then
        c.hierarchy.union (reading.type.members ++ [["null"]])
      else reading.type
    name := target.map (·.1.1)
    remainder := remainderOf ds rest.stop after
    nullable := reading.type.isNullable
    modifiers := (target.map (·.1.2)).getD ""
    spelled := some reading.spelled
    span := some reading.span }

theorem read_eq_completed {text : String} {ds : List Char} {rest : Lexing}
    (h : readType c text.toList e ⟨(lex text).lexemes, []⟩ = .ok (reading, after))
    (ha : Ahead text.toList (lex text).stop m after.rest ds rest) :
    read c text e = completed c e reading ds rest := by
  obtain ⟨hd, hr, hs⟩ := ha
  have hafter : after = moved m after.words ⟨rest.lexemes, []⟩ := by
    rw [moved, ← hr]
  unfold read completed
  simp only [h, Except.toOption, Option.map_some, hs]
  rw [hafter, readVariable_moved]
  have hnone : remainderOf text.toList (rest.stop + m) (moved m after.words ⟨rest.lexemes, []⟩) =
      remainderOf ds rest.stop ⟨rest.lexemes, []⟩ := remainderOf_moved hd _
  by_cases he : e.hasVariable = true
  · simp only [he, if_true]
    cases readVariable e ⟨rest.lexemes, []⟩ with
    | none => simp [hnone, Option.any]
    | some p => simp [remainderOf_moved hd, seesNullDefault_moved, Option.any]
  · simp [he, hnone, Option.any]

structure Respelled (c : Context) (e : Extent) (text : List Char) (n : Nat) (sp : Bool)
    (reading : Reading) (after : Reader) (first : Lexeme) (others : List Lexeme) (m : Nat) (sp' : Bool)
    (ds : List Char) (place : Nat → Nat) (m' : Nat) : Prop where
  type : Grammar.type c ⟨(lexFrom n sp (text.drop n)).lexemes, []⟩ = .ok (reading.type, after)
  split : (lexFrom n sp (text.drop n)).lexemes = first :: others ++ after.rest
  ends : endsType e after.rest.head? = true
  spelled : reading.spelled = spell text after.words (first :: others)
  span : reading.span = (first.start, m)
  drop : text.drop m = ds
  ahead : lexFrom m sp' ds = ⟨after.rest, (lexFrom n sp (text.drop n)).stop⟩
  noted : ∀ w ∈ after.words, ∃ l ∈ first :: others, l.start = w
  recut : Recut text after.words first others ds n sp
    ((respelled text after.words first others ds).drop n) m' sp' (Respelling.lexeme ⟨after.words, place⟩)
  moved : after.rest.map (Respelling.lexeme ⟨after.words, place⟩) = (lexFrom m' sp' ds).lexemes

/-- The lexemes of a type that is read are cut off one after another. -/
theorem exists_lexed_of_readType {n : Nat} {sp : Bool}
    (h : readType c text e ⟨(lexFrom n sp (text.drop n)).lexemes, []⟩ = .ok (reading, after)) :
    ∃ first others m sp' ds, Lexed n sp (text.drop n) (first :: others) m sp' ds ∧
      reading.spelled = spell text after.words (first :: others) ∧
      reading.span = (first.start, m) ∧ endsType e after.rest.head? = true ∧
      (lexFrom n sp (text.drop n)).lexemes = first :: others ++ after.rest ∧
      lexFrom m sp' ds = ⟨after.rest, (lexFrom n sp (text.drop n)).stop⟩ ∧
      ∀ w ∈ after.words, ∃ l ∈ first :: others, l.start = w := by
  obtain ⟨first, others, htype, hread, hend, hspelled, hspan⟩ := readType_eq_ok.mp h
  obtain ⟨read, noted, hr, hw, hn⟩ := (Grammar.carries_type (r := ⟨[], id⟩)).moves _ _ _ htype
  obtain rfl : read = first :: others := by
    rw [← hread, hr]
    simp
  have hw' : after.words = noted := by simpa using hw
  have hlex : lexFrom n sp (text.drop n) =
      ⟨first :: others ++ after.rest, (lexFrom n sp (text.drop n)).stop⟩ := by
    rw [← hr]
  obtain ⟨m, sp', ds, hl, hds⟩ := exists_lexed hlex
  refine ⟨first, others, m, sp', ds, hl, hspelled, ?_, hend, hr, hds, ?_⟩
  · rw [hspan, hl.getLast?_stop (by simp)]
    rfl
  · rw [hw']
    exact hn

theorem exists_respelled {n : Nat} {sp : Bool}
    (h : readType c text e ⟨(lexFrom n sp (text.drop n)).lexemes, []⟩ = .ok (reading, after)) :
    ∃ first others m sp' ds place m',
      Respelled c e text n sp reading after first others m sp' ds place m' := by
  obtain ⟨first, others, m, sp', ds, hl, hspelled, hspan, hend, hr, hds, hnoted⟩ :=
    exists_lexed_of_readType h
  obtain ⟨-, -, htype, -⟩ := readType_eq_ok.mp h
  have hlt : ∀ w ∈ after.words, w < m := fun w hm => by
    obtain ⟨l, hl', rfl⟩ := hnoted w hm
    exact hl.stop_le l hl'
  obtain ⟨place, cs', m', hrecut, hmoved⟩ := hl.recut rfl hlt
  refine ⟨first, others, m, sp', ds, place, m', htype, hr, hend, hspelled, hspan, hl.drop_eq rfl,
    hds, hnoted, ?_, ?_⟩
  · rw [hrecut.drop]
    exact hrecut
  · rw [← hmoved, hds]

namespace Respelled
variable {n m' : Nat} {sp sp' : Bool} {first : Lexeme} {others : List Lexeme} {ds : List Char}
  {place : Nat → Nat}

/-- The reader before the respelled type. -/
theorem reader_eq (h : Respelled c e text n sp reading after first others m sp' ds place m') :
    (⟨(lexFrom n sp ((respelled text after.words first others ds).drop n)).lexemes, []⟩ : Reader) =
      Respelling.reader ⟨after.words, place⟩ ⟨(lexFrom n sp (text.drop n)).lexemes, []⟩ := by
  rw [h.recut.lexed.lexFrom_eq, Respelling.reader, h.split, List.map_append, h.moved]
  rfl

theorem ahead_before (h : Respelled c e text n sp reading after first others m sp' ds place m') :
    Ahead text (lexFrom n sp (text.drop n)).stop m after.rest ds (lexFrom 0 sp' ds) := by
  have hshift := lexFrom_shift m 0 sp' ds
  rw [Nat.zero_add, h.ahead] at hshift
  exact ⟨h.drop, congrArg Lexing.lexemes hshift, congrArg Lexing.stop hshift⟩

theorem ahead_after (h : Respelled c e text n sp reading after first others m sp' ds place m') :
    Ahead (respelled text after.words first others ds)
      (lexFrom n sp ((respelled text after.words first others ds).drop n)).stop m'
      (after.rest.map (Respelling.lexeme ⟨after.words, place⟩)) ds (lexFrom 0 sp' ds) := by
  have hshift := lexFrom_shift m' 0 sp' ds
  rw [Nat.zero_add] at hshift
  refine ⟨h.recut.lexed.drop_eq rfl, ?_, ?_⟩
  · rw [h.moved, hshift]
  · rw [h.recut.lexed.lexFrom_eq, hshift]

/-- The respelled type is in its recommended spelling. -/
theorem settled (h : Respelled c e text n sp reading after first others m sp' ds place m') :
    ∀ l ∈ (first :: others).map (Respelling.lexeme ⟨after.words, place⟩),
      respell (after.words.map place) l = l.text := by
  have hnodup := nodup_start n sp ((respelled text after.words first others ds).drop n)
  rw [h.recut.lexed.lexFrom_eq, List.map_append] at hnodup
  exact settled_lexemes (List.nodup_append.mp hnodup).1 h.noted

/-- Unless a word is torn, the respelled type is read as before. -/
theorem readType_eq (h : Respelled c e text n sp reading after first others m sp' ds place m')
    (ht : ¬Reader.Torn ⟨(lexFrom n sp (text.drop n)).lexemes, []⟩ after) :
    readType c (respelled text after.words first others ds) e
      ⟨(lexFrom n sp ((respelled text after.words first others ds).drop n)).lexemes, []⟩ =
      .ok (⟨reading.type, reading.spelled, (first.start, m')⟩,
        Respelling.reader ⟨after.words, place⟩ after) := by
  have htype := (Grammar.carries_type (r := ⟨after.words, place⟩)).same _ _ _ trivial
    (ready_lexFrom _ _ _) h.type (fun _ _ _ _ => Iff.rfl) ht
  refine readType_eq_ok.mpr ⟨Respelling.lexeme ⟨after.words, place⟩ first,
    others.map (Respelling.lexeme ⟨after.words, place⟩), ?_, ?_, ?_, ?_, ?_⟩
  · rw [h.reader_eq]
    exact htype
  · rw [h.reader_eq, Respelling.reader, Respelling.reader, h.split, List.map_append]
    refine List.take_left' ?_
    simp only [List.length_append, List.length_map, Nat.add_sub_cancel]
  · have hends := h.ends
    rw [h.ahead_before.lexemes, List.head?_map, endsType_shift] at hends
    rw [Respelling.reader, h.ahead_after.lexemes, List.head?_map, endsType_shift]
    exact hends
  · rw [h.spelled]
    exact (h.recut.again _ h.settled).symm
  · rw [← List.map_cons, h.recut.lexed.getLast?_stop (by simp), h.recut.start]
    rfl

/-- If a word is torn, the respelled type goes on after the angle bracket, if it is a type at all. -/
theorem split_of_torn (h : Respelled c e text n sp reading after first others m sp' ds place m')
    (ht : Reader.Torn ⟨(lexFrom n sp (text.drop n)).lexemes, []⟩ after) {reading' : Reading}
    {after' : Reader} (h' : readType c (respelled text after.words first others ds) e
      ⟨(lexFrom n sp ((respelled text after.words first others ds).drop n)).lexemes, []⟩ =
      .ok (reading', after')) :
    ∃ l skipped, (lexFrom m' sp' ds).lexemes = l :: skipped ++ after'.rest := by
  obtain ⟨-, -, htype, -⟩ := readType_eq_ok.mp h'
  rw [h.reader_eq] at htype
  have hlt := (Grammar.carries_type (r := ⟨after.words, place⟩)).torn _ _ _ trivial
    (ready_lexFrom _ _ _) h.type (fun _ _ _ _ => Iff.rfl) ht _ _ htype
  obtain ⟨read, -, hr, -⟩ := (Grammar.carries_type (r := ⟨[], id⟩)).moves _ _ _ htype
  have hlen := congrArg List.length h.moved
  rw [List.length_map] at hlen
  have hsplit : (first :: others).map (Respelling.lexeme ⟨after.words, place⟩) ++
      (lexFrom m' sp' ds).lexemes = read ++ after'.rest := by
    rw [← hr, Respelling.reader, h.split, List.map_append, h.moved]
  obtain ⟨skipped, -, hs⟩ | ⟨skipped, -, hs⟩ := List.append_eq_append_iff.mp hsplit
  · cases skipped with
    | nil =>
      rw [hs, List.nil_append] at hlen
      omega
    | cons l skipped => exact ⟨l, skipped, hs⟩
  · have hlen' := congrArg List.length hs
    rw [List.length_append] at hlen'
    omega

/-- If a word is torn, the angle bracket is among the lexemes read. -/
theorem ahead_of_torn (h : Respelled c e text n sp reading after first others m sp' ds place m')
    (ht : Reader.Torn ⟨(lexFrom n sp (text.drop n)).lexemes, []⟩ after) {reading' : Reading}
    {after' : Reader} (h' : readType c (respelled text after.words first others ds) e
      ⟨(lexFrom n sp ((respelled text after.words first others ds).drop n)).lexemes, []⟩ =
      .ok (reading', after')) :
    ∃ l skipped ahead stop, lexFrom 0 sp' ds = ⟨l :: (skipped ++ ahead), stop⟩ ∧
      after'.rest = ahead.map (shift m') ∧ l.text = "<" ∧ l.kind = .symbol := by
  obtain ⟨l', skipped', hsplit⟩ := h.split_of_torn ht h'
  rw [← h.moved, h.ahead_after.lexemes] at hsplit
  obtain ⟨read, ahead, hB, hread, hahead⟩ := List.map_eq_append_iff.mp hsplit
  obtain ⟨l, skipped, rfl, -, -⟩ := List.map_eq_cons_iff.mp hread
  have hl : l.text = "<" := by
    obtain ⟨_, _, k, rest, -, hrest, -, -, hk⟩ := ht
    rw [h.ahead_before.lexemes, hB, List.cons_append, List.map_cons] at hrest
    rw [← hk, ← (List.cons.inj hrest).1]
    rfl
  have hmem : l ∈ (lexFrom 0 sp' ds).lexemes := by
    rw [hB]
    exact List.mem_cons_self
  refine ⟨l, skipped, ahead, (lexFrom 0 sp' ds).stop, ?_, hahead.symm, hl, kind_of_angle hmem hl⟩
  rw [← List.cons_append, ← hB]

/-- The respelled type stands where it is expected. -/
theorem slice_eq (h : Respelled c e text n sp reading after first others m sp' ds place m')
    {styled : String} (hs : styled.toList = respelled text after.words first others ds) :
    Text.slice styled first.start m' = reading.spelled := by
  have hlen := h.recut.lexed.length_eq
  have hlt := h.recut.lexed.length_pos
  have htake := h.recut.stop
  rw [← h.spelled] at htake
  rw [respelled, ← h.spelled] at hlen hlt
  simp only [List.length_drop, List.length_append, String.length_toList] at hlen hlt
  have hfirst : (text.take first.start).length = first.start := by omega
  have hcut : (text.take first.start ++ reading.spelled.toList ++ ds).take m' =
      text.take first.start ++ reading.spelled.toList := by
    refine List.take_left' ?_
    rw [List.length_append, hfirst, String.length_toList, htake]
  rw [Text.slice, hs, respelled, ← h.spelled, hcut, List.drop_left' hfirst, String.ofList_toList]

end Respelled

end TypedTag
end PhpDoc
