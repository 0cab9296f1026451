import PhpDoc.Proofs.DetachedGrammar
import PhpDoc.Proofs.TypeSpans
/-!
Types in their recommended spelling. Such a text stands for the type by itself: it is read as the same
type to its end, and it is its own recommended spelling.
-/
namespace PhpDoc
open Lexing

namespace TypedTag
variable {c : Context} {e : Extent} {text : List Char} {after : Reader} {reading : Reading}
  {n : Nat} {sp : Bool} {first : Lexeme} {others : List Lexeme}

/-- The lexemes of a type with nothing before it. -/
theorem map_respaced (hn : ((first :: others).map Lexeme.start).Nodup) :
    (first :: others).map (Lexeme.respaced fun l => l.spaced && l.start != first.start) =
      { first with spaced := false } :: others := by
  obtain ⟨hout, -⟩ := List.nodup_cons.mp hn
  rw [List.map_cons, List.cons.injEq]
  refine ⟨by simp [Lexeme.respaced], ?_⟩
  refine (List.map_congr_left fun l hl => ?_).trans (List.map_id _)
  have hne : l.start ≠ first.start := fun he => hout (he ▸ List.mem_map_of_mem hl)
  have hspaced : (l.spaced && l.start != first.start) = l.spaced := by simp [hne]
  rw [Lexeme.respaced, hspaced]
  rfl

/-- A type that is read from a text can be read by itself. -/
theorem type_detached
    (h : Grammar.type c ⟨first :: others ++ after.rest, []⟩ = .ok (reading.type, after))
    (hn : ((first :: others).map Lexeme.start).Nodup) :
    Grammar.type c ⟨{ first with spaced := false } :: others, []⟩ =
      .ok (reading.type, ⟨[], after.words⟩) := by
  rw [← map_respaced hn]
  exact Grammar.detaches_type.alone (first :: others) [] _ [] _ (Nat.lt_succ_self _) h

structure Cut (words : List Nat) (place : Nat → Nat) (first : Lexeme) (others : List Lexeme)
    (spelled : String) (first' : Lexeme) (others' : List Lexeme) : Prop where
  lexemes : first' :: others' =
    ({ first with spaced := false } :: others).map (Respelling.lexeme ⟨words, place⟩)
  lex : lex spelled = ⟨first' :: others', spelled.length⟩
  start : first'.start = 0
  stop : (first' :: others').getLast?.map Lexeme.stop = some spelled.length
  again : ∀ words', (∀ l ∈ first' :: others', respell words' l = l.text) →
    spell spelled.toList words' (first' :: others') = spelled

theorem exists_cut {m : Nat} {sp' : Bool} {ds : List Char} (words : List Nat)
    (h : Lexed n sp (text.drop n) (first :: others) m sp' ds)
    (hn : ((first :: others).map Lexeme.start).Nodup) : ∃ place first' others',
      Cut words place first others (spell text words (first :: others)) first' others' := by
  obtain ⟨first', others', hl, hall, hstart, hagain⟩ := h.respell_from words rfl [] (by simp) 0 false
  obtain ⟨front, hfront, halone⟩ := hl.replace (endsToo_nil ds)
  rw [List.nil_append] at hfront
  obtain rfl : (spell text words (first :: others)).toList = front := List.append_cancel_right hfront
  have hn' : ((({ first with spaced := false } : Lexeme) :: others).map Lexeme.start).Nodup := hn
  obtain ⟨place, hplace⟩ := exists_place hn' hall
  have hlength : 0 + List.length ([] : List Char) + (spell text words (first :: others)).length =
      (spell text words (first :: others)).length := by simp
  rw [List.append_nil, hlength] at halone
  refine ⟨place, first', others', hplace, ?_, hstart, halone.getLast?_stop (by simp), fun words' => ?_⟩
  · rw [lex, halone.lexFrom_eq, lexFrom, List.append_nil]
  · exact hagain _ words' [] (by rw [List.drop_zero, List.nil_append, List.append_nil])

/-- A type that is read from a text is read from its recommended spelling, which is its own. -/
theorem readType_spelled (n : Nat) (sp : Bool)
    (h : readType c text e ⟨(lexFrom n sp (text.drop n)).lexemes, []⟩ = .ok (reading, after)) :
    ∃ words, readType c reading.spelled.toList .type ⟨(lex reading.spelled).lexemes, []⟩ =
        .ok (⟨reading.type, reading.spelled, (0, reading.spelled.length)⟩, ⟨[], words⟩) ∧
      (lex reading.spelled).stop = reading.spelled.length := by
  obtain ⟨first, others, m, sp', ds, hl, hspelled, -, -, hsplit, -, hnoted⟩ :=
    exists_lexed_of_readType h
  obtain ⟨-, -, htype, -⟩ := readType_eq_ok.mp h
  have hready := ready_lexFrom n sp (text.drop n)
  rw [hsplit] at htype hready
  have hnodup : ((first :: others).map Lexeme.start).Nodup := by
    have hall := hready.nodup
    rw [List.map_append] at hall
    exact (List.nodup_append.mp hall).1
  obtain ⟨place, first', others', hcut⟩ := exists_cut after.words hl hnodup
  rw [← hspelled] at hcut
  have hready' : Reader.Ready ⟨{ first with spaced := false } :: others, []⟩ := by
    refine ⟨hnodup, fun _ _ => List.not_mem_nil, fun l hl => ?_⟩
    rcases List.mem_cons.mp hl with rfl | hl
    · exact hready.symbol first (by simp)
    · exact hready.symbol l (by simp [hl])
  -- nothing follows the type, so no word of it is torn
  have htorn : ¬Reader.Torn ⟨{ first with spaced := false } :: others, []⟩ ⟨[], after.words⟩ := by
    rintro ⟨_, _, _, _, -, hnil, -⟩
    cases hnil
  have htype' := (Grammar.carries_type (r := ⟨after.words, place⟩)).same _ _ _ trivial hready'
    (type_detached htype hnodup) (fun _ _ _ _ => Iff.rfl) htorn
  rw [Respelling.reader, ← hcut.lexemes] at htype'
  have hnoted' : ∀ w ∈ after.words,
      ∃ l ∈ ({ first with spaced := false } : Lexeme) :: others, l.start = w := by
    simpa using hnoted
  have hsettled : ∀ l ∈ first' :: others', respell (after.words.map place) l = l.text := by
    have hstarts := nodup_start 0 false reading.spelled.toList
    rw [← lex, hcut.lex, hcut.lexemes] at hstarts
    rw [hcut.lexemes]
    exact settled_lexemes hstarts hnoted'
  refine ⟨after.words.map place, readType_eq_ok.mpr ⟨first', others', ?_, ?_, rfl, ?_, ?_⟩, ?_⟩
  · rw [hcut.lex]
    exact htype'
  · rw [hcut.lex]
    exact List.take_length
  · exact (hcut.again _ hsettled).symm
  · rw [hcut.stop, hcut.start]
    rfl
  · rw [hcut.lex]

/-- The recommended spelling of a type says what the type says, and has nothing left to respell. A
type that a default value widens is written without this value, so it is left out here. -/
theorem read_spelled {text spelled : String} {t : DocType} (he : e ≠ .default)
    (ht : (read c text e).type = some t) (hs : (read c text e).spelled = some spelled) :
    read c spelled .type =
      { type := some t
        remainder := ""
        nullable := (read c text e).nullable
        spelled := some spelled
        span := some (0, spelled.length) } := by
  cases hr : readType c text.toList e ⟨(lex text).lexemes, []⟩ with
  | error f => simp [read, hr, Except.toOption] at hs
  | ok p =>
    obtain ⟨reading, after⟩ := p
    have htype : (read c text e).type = some reading.type := by simp [read, hr, Except.toOption, he]
    have hspelled : (read c text e).spelled = some reading.spelled := by
      simp [read, hr, Except.toOption]
    have hnullable : (read c text e).nullable = reading.type.isNullable := by
      simp [read, hr, Except.toOption]
    obtain rfl : reading.type = t := Option.some.inj (htype.symm.trans ht)
    obtain rfl : reading.spelled = spelled := Option.some.inj (hspelled.symm.trans hs)
    obtain ⟨words, hread, hstop⟩ := readType_spelled 0 false hr
    have hend : reading.spelled.toList.drop reading.spelled.length = [] := by
      rw [← String.length_toList]
      exact List.drop_length
    have hremainder :
        remainderOf reading.spelled.toList reading.spelled.length ⟨[], words⟩ = "" := by
      simp [remainderOf, Text.trimList, hend]
    rw [hnullable]
    simp [read, hread, hstop, hremainder, Except.toOption, Extent.hasVariable]

theorem read_spelled_sample :
    (read {} "double|array<integer,\n  boolean>|null $x the numbers" .variable).spelled =
      some "float|array<int, bool>|null" ∧
    read {} "float|array<int, bool>|null" .type =
      { type := some (.ofText "array|float|null")
        remainder := ""
        nullable := true
        spelled := some "float|array<int, bool>|null"
        span := some (0, 27) } := by
  have hspelled : (read {} "double|array<integer,\n  boolean>|null $x the numbers" .variable).spelled =
      some "float|array<int, bool>|null" := by decide +kernel
  have htype : (read {} "double|array<integer,\n  boolean>|null $x the numbers" .variable).type =
      some (.ofText "array|float|null") := by decide +kernel
  have hnullable :
      (read {} "double|array<integer,\n  boolean>|null $x the numbers" .variable).nullable = true := by
    decide +kernel
  have hread := read_spelled (by decide) htype hspelled
  rw [hnullable] at hread
  exact ⟨hspelled, hread⟩

end TypedTag
end PhpDoc
