import PhpDoc.Proofs.Compositions
import PhpDoc.Proofs.Restyling
/-!
The names of closures. A name is read with the signature of a closure if it is spelled like one,
and otherwise as the class that it resolves to. The two agree only where the spelling tells what the
name resolves to.
-/
namespace PhpDoc
open Lexing (IsName EndsName lexFrom shift lexFrom_cons lexFrom_shift)

def Scope.SpellsClosure (scope : Scope) (n : String) : Prop :=
  n = "\\Closure" ∨ n = "Closure" ∧ scope.nameSpace = ""

namespace Parse
open Lexeme (relocated)
variable {α β : Type} {place : Nat → Nat} {ahead : List Lexeme} {l l' : Lexeme}
  {p p' q q' : Parse α} {f : α → Parse β} {x : String}

def started (l : Lexeme) (p : Parse α) : Parse α :=
  fun s => p { s with rest := l :: s.rest }

theorem started_sees (hx : l.text ≠ x) :
    started l (do if ← sees x then p else q) = started l q := by
  funext s
  have hlook : started l (do if ← sees x then p else q) s =
      (if (l.text == x) = true then p else q) { s with rest := l :: s.rest } := rfl
  rw [hlook, beq_false_of_ne hx]
  rfl

theorem started_next? {f : Option Lexeme → Parse β} :
    started l (next? >>= f) = started l (f (some l)) :=
  rfl

/-- Items of which the first one is read after different lexemes. -/
theorem attaches_started_items {more : Parse Bool} {d : Reader → Bool}
    (hmore : ∀ s, more s = .ok (d s, s)) (hopen : ∀ s, Unfinished s.rest → d s = false)
    (hd : ∀ ls ws ws', Settled ahead ls →
      d ⟨ls.map (relocated place) ++ ahead, ws'⟩ = d ⟨ls, ws⟩)
    (hi : Attaches place ahead (Settled ahead) p p')
    (hp : Attaches place ahead (Settled ahead) (started l p) (started l' p')) :
    Attaches place ahead (Settled ahead) (started l (items p more)) (started l' (items p' more)) :=
  attaches_get_bind (f := fun n => started l p >>= itemsAfter p more (n + 1))
    (u := fun n => started l' p' >>= itemsAfter p' more (n + 1)) fun _ _ hb =>
      hp.bind (attaches_itemsAfter hmore hopen hd
        (attaches_itemsTo hmore hopen hd hi (Nat.succ_le_succ hb)))
        (spares_itemsAfter hmore hopen _)

end Parse

namespace Grammar
open Parse
open Lexeme (relocated)
variable {c : Context} {inner inner' : Nested} {place : Nat → Nat} {ahead : List Lexeme}
  {l l' : Lexeme} {n : String}

/-- What a name is read as is told by its spelling. -/
theorem construct?_of_classText {scope : Scope} (hn : IsClassText l.text) (hk : l.kind = .name) :
    (construct? scope l = some .callable ↔ scope.SpellsClosure l.text) ∧
      (construct? scope l = some .className ↔ ¬scope.SpellsClosure l.text) := by
  have hno : l.text ∉ Words.reserved := fun hw => by
    have hall : ∀ w ∈ Words.reserved, Words.isReserved w = true := by decide
    have hres := hn.notReserved
    rw [hall _ hw] at hres
    cases hres
  have hthis : l.text ≠ "$this" := IsName.ne_of_sign hn.name (by decide)
  rw [construct?_of_not_word hno hthis (by simp [hk]), hk, hn.noEmpty, hn.notReserved]
  by_cases hs : scope.SpellsClosure l.text
  · have hform :
        (l.text == "\\Closure" || l.text == "Closure" && scope.nameSpace == "") = true := by
      simpa [Scope.SpellsClosure] using hs
    simp [hform, hs]
  · have hform :
        (l.text == "\\Closure" || l.text == "Closure" && scope.nameSpace == "") = false := by
      simpa [Scope.SpellsClosure] using hs
    simp [hform, hs, hn.noHyphen]

structure IsClosure (scope : Scope) (l : Lexeme) : Prop where
  construct : construct? scope l = some .callable
  text : l.text ∉ ["?", "(", "callable"]

section
variable (hl : IsClosure c.scope l)
include hl

theorem started_single : started l (single c inner) =
    signature inner (.atom "\\Closure") >>= constantAfter c >>= bracketsAfter := by
  have hno : ∀ x ∈ ["?", "(", "callable"], l.text ≠ x := fun x hx he => hl.text (he ▸ hx)
  have hbasic : started l (basic c inner) =
      signature inner (.atom "\\Closure") >>= constantAfter c := by
    have htake : started l (callable inner) =
        signature inner (.atom (if l.text = "callable" then "callable" else "\\Closure")) := rfl
    rw [if_neg (hno _ (by simp))] at htake
    rw [← htake, basic, started_next?, Option.bind_some, hl.construct]
    rfl
  have hsees := started_sees (p := do
      skip
      let t ← inner.bracketed
      expect ")"
      bracketsAfter t) (q := basic c inner >>= bracketsAfter) (hno "(" (by simp))
  rw [← hbasic]
  exact hsees

theorem started_whole : started l (whole c inner) =
    started l (items (intersection c inner) (sees "|")) >>= fun members =>
      pure (c.hierarchy.union members.flatten) := by
  have hno : l.text ≠ "?" := fun he => hl.text (by simp [he])
  exact started_sees (p := do
      skip
      let t ← single c inner
      return c.hierarchy.union (t.members ++ [["null"]])) hno

end

section
variable (hc : Stops ahead) (hn : NestedAttaches place ahead inner inner')
  (hl : IsClosure c.scope l) (hl' : IsClosure c.scope l')
include hc hn hl hl'

theorem attaches_started_single : Attaches place ahead (Settled ahead) (started l (single c inner))
    (started l' (single c inner')) := by
  rw [started_single hl, started_single hl']
  exact ((attaches_signature hc hn _).bind (attaches_constantAfter hc) spares_constantAfter).bind
    (attaches_bracketsAfter hc) spares_bracketsAfter

theorem attaches_started_intersection : Attaches place ahead (Settled ahead)
    (started l (intersection c inner)) (started l' (intersection c inner')) := by
  rw [intersection_eq, intersection_eq]
  exact (attaches_started_items joins_eq (fun _ => joinsAhead_of_unfinished)
    (fun _ ws ws' hs => joinsAhead_append hc hs ws ws') (attaches_single hc hn)
    (attaches_started_single hc hn hl hl')).bind attaches_join spares_join

/-- A closure is read alike however it is spelled. -/
theorem attaches_started_whole : Attaches place ahead (Settled ahead) (started l (whole c inner))
    (started l' (whole c inner')) := by
  rw [started_whole hl, started_whole hl']
  exact (attaches_started_items (fun _ => rfl) (fun _ hs => hs.shows (by decide))
    (fun ls ws ws' _ => hc.blind_shows 0 (by decide) ls ws ws' (Nat.zero_le _))
    (attaches_intersection hc hn) (attaches_started_intersection hc hn hl hl')).bind
    (fun _ => attaches_pure _) fun _ => spares_pure _

end

theorem type_closure (hl : IsClosure c.scope l) (hl' : IsClosure c.scope l') {t : DocType}
    {ls ms : List Lexeme} {words : List Nat}
    (h : type c ⟨l :: ls, []⟩ = .ok (t, ⟨ms, words⟩)) (place : Nat → Nat) : ∃ words',
      type c ⟨l' :: ls.map (relocated place), []⟩ =
        .ok (t, ⟨ms.map (relocated place), words'⟩) := by
  have hc : Stops [] := ⟨by simp, by simp, rfl⟩
  have htype : ∀ l, started l (type c) = get >>= fun s : Reader =>
      started l (whole c (nested c (s.rest.length + 1))) := fun l => by
    funext s
    have hlook : started l (type c) s =
        (nested c ((l :: s.rest).length + 1)).whole ⟨l :: s.rest, s.words⟩ := rfl
    rw [hlook, List.length_cons]
    rfl
  have hread : Attaches place [] (Settled []) (started l (type c)) (started l' (type c)) := by
    rw [htype, htype]
    exact attaches_get_bind (f := fun n => started l (whole c (nested c (n + 1))))
      (u := fun n => started l' (whole c (nested c (n + 1)))) fun _ _ hb =>
        attaches_started_whole hc (nestedAttaches hc (Nat.succ_le_succ hb)) hl hl'
  have hall := hread ls [] t ms words h (fun hne => (hne rfl).elim) []
  simp only [List.append_nil] at hall
  exact hall

theorem classType_of_not_template {scope : Scope} (ht : scope.templates.get? n = none) :
    classType scope n = .ofText (scope.resolve n) := by
  obtain ⟨v, hv, -⟩ | he := classType_template_or scope n
  · rw [ht] at hv
    cases hv
  · exact he

theorem reads_basic_className {rest : List Lexeme} (hk : construct? c.scope l = some .className)
    (hl : l.text.toList.getLast? ≠ some '\\') (hr : Follows ["("] rest) :
    Reads (basic c inner) (l :: rest) (classType c.scope l.text) rest := by
  refine reads_basic_of_stem hr (by decide) ⟨.className, hk, reads_take.bind ?_⟩
  rw [if_neg hl]
  exact (hr.reads_sees (by decide)).bind reads_pure

theorem answers_type_of_basic {rest : List Lexeme} {t : DocType} {o : Option DocType}
    (hr : Follows ["("] rest) (hl : l.text ∉ ["(", "?"])
    (hb : ∀ inner, Answers (basic c inner) (l :: rest) (some t) rest)
    (ho : joinedType c.hierarchy [[t]] = o) : Answers (type c) (l :: rest) o rest := by
  rw [← ho, joinedType_singleton]
  exact answers_get_bind fun _ => answers_whole_of_basic hr (by decide) hl (hb _)

/-- A class name is read no further than to a parenthesis, as the type of what it resolves to. -/
theorem answers_classText {rest : List Lexeme} {o : Option DocType} (hn : IsClassText l.text)
    (hk : l.kind = .name) (hform : ¬c.scope.SpellsClosure l.text)
    (ht : c.scope.templates.get? l.text = none)
    (ho : joinedType c.hierarchy [[.ofText (c.scope.resolve l.text)]] = o)
    (hr : Follows ["("] rest) : Answers (type c) (l :: rest) o rest := by
  have hsign : l.text ∉ ["(", "?"] := IsName.not_mem_signs hn.name (by decide)
  have hclass := ((construct?_of_classText hn hk).2).mpr hform
  rw [← classType_of_not_template ht] at ho
  exact answers_type_of_basic hr hsign (fun _ => reads_basic_className hclass hn.closed hr) ho

end Grammar

namespace Lexing
variable {n : String} {rest : List Char}

theorem not_isBlank_of_continuesName {d : Char} (hd : continuesName d = true) :
    Text.isBlank d = false := by
  have hb := bounds_of_continuesName hd
  simp only [Text.isBlank, isWhiteSpace_of_continuesName hd, Bool.false_or, Bool.and_eq_false_iff,
    decide_eq_false_iff_not]
  omega

/-- A name that goes on no further is the first lexeme of a text. -/
theorem lexFrom_name (hn : IsName n) (hr : EndsName rest) (start : Nat) (spaced : Bool) :
    lexFrom start spaced (n.toList ++ rest) =
      ⟨⟨.name, start, n, spaced⟩ :: (lexFrom (start + n.length) false rest).lexemes,
        (lexFrom (start + n.length) false rest).stop⟩ := by
  obtain ⟨d, ds, hl, hd, hds⟩ := hn
  have hlast : Text.isBlank (ds.getLastD d) = false := by
    refine not_isBlank_of_continuesName ?_
    rcases List.mem_cons.mp (List.getLastD_mem_cons (l := ds) (a := d)) with he | hm
    · rw [he]
      exact continuesName_of_beginsName hd
    · exact hds _ hm
  have hlen : n.length = 1 + ds.length := by
    rw [← String.length_toList, hl, List.length_cons, Nat.add_comm]
  have hn : String.ofList (d :: ds) = n := by
    rw [← hl, String.ofList_toList]
  have htail := lexemeTail_append hd hds hr
  rw [hl, List.cons_append, lexFrom_cons (isWhiteSpace_of_beginsName hd) htail, hlast, hlen,
    Nat.add_assoc, hn]

end Lexing

namespace TypedTag
open Grammar (IsClassText)
open Lexeme (relocated)
open Lexing (lexFrom_name)
open Parse (Answers Follows)
variable {c : Context} {n n' s text : String} {t : DocType}

theorem type_read_eq_some : (read c text).type = some t ↔ ∃ after,
    Grammar.type c ⟨(lex text).lexemes, []⟩ = .ok (t, after) ∧
      isDelimited after.rest.head? = true := by
  have hends : ∀ o, endsType .type o = isDelimited o := fun o => Bool.or_false _
  rw [type_read]
  constructor
  · intro h
    cases hr : readType c text.toList .type ⟨(lex text).lexemes, []⟩ with
    | error e => simp [hr, Except.toOption] at h
    | ok p =>
      obtain ⟨reading, after⟩ := p
      obtain ⟨first, others, ht, -, he, -⟩ := readType_eq_ok.mp hr
      obtain rfl : reading.type = t := by simpa [hr, Except.toOption] using h
      exact ⟨after, ht, hends _ ▸ he⟩
  · rintro ⟨after, ht, he⟩
    obtain ⟨front, hfront, hlen⟩ := Grammar.eats_type _ _ _ ht
    obtain ⟨first, others, rfl⟩ := List.exists_cons_of_length_pos hlen
    have hread : (lex text).lexemes.take ((lex text).lexemes.length - after.rest.length) =
        first :: others := by
      have hfront : (lex text).lexemes = first :: others ++ after.rest := hfront
      rw [hfront, List.length_append, Nat.add_sub_cancel, List.take_left']
      rfl
    have hok : readType c text.toList .type ⟨(lex text).lexemes, []⟩ =
        .ok (⟨t, spell text.toList after.words (first :: others), _⟩, after) :=
      readType_eq_ok.mpr ⟨first, others, ht, hread, (hends _).trans he, rfl, rfl⟩
    rw [hok]
    rfl

/-- A type is read off the front of a text if it is set off from what follows it. -/
theorem type_read_of_answers {ls rest : List Lexeme} {o : Option DocType}
    (hl : (lex text).lexemes = ls) (ho : Answers (Grammar.type c) ls o rest) :
    (read c text).type = if isDelimited rest.head? = true then o else none := by
  refine Option.ext fun t => ?_
  rw [type_read_eq_some, hl]
  cases o with
  | none =>
    obtain ⟨e, he⟩ := ho []
    simp [he]
  | some u =>
    obtain ⟨words, hw⟩ := ho []
    simp [hw, and_comm]

theorem endsName_signature (hs : s = "" ∨ Text.beginsWith "(" s = true) :
    EndsName s.toList := by
  rcases hs with rfl | hs
  · simp [EndsName]
  · obtain ⟨cs, hcs⟩ : ['('] <+: s.toList := by simpa [Text.beginsWith] using hs
    rw [← hcs]
    exact endsName_sign (by simp)

/-- A text of a name and a signature is cut into the name and the lexemes of the signature. -/
theorem lexemes_signature (hn : IsName n) (hs : s = "" ∨ Text.beginsWith "(" s = true) :
    (lex (n ++ s)).lexemes = ⟨.name, 0, n, false⟩ :: (lex s).lexemes.map (shift n.length) := by
  rw [lex, String.toList_append, lexFrom_name hn (endsName_signature hs), lexFrom_shift]
  rfl

theorem isClosure_of_spellsClosure (hn : c.scope.SpellsClosure n) :
    IsName n ∧ Grammar.IsClosure c.scope ⟨.name, 0, n, false⟩ := by
  have hmem : n ∈ ["\\Closure", "Closure"] := by simpa using hn.imp_right And.left
  have hall : ∀ m ∈ ["\\Closure", "Closure"], (∃ d ∈ m.toList.head?, Lexing.beginsName d = true ∧
      ∀ d ∈ m.toList.tail, Lexing.continuesName d = true) ∧ '-' ∉ m.toList ∧
        Grammar.hasEmptySegment m.toList = false ∧ Words.isReserved m = false ∧
          m.toList.getLast? ≠ some '\\' ∧ m ∉ ["?", "(", "callable"] := by decide
  obtain ⟨hhead, hhyphen, hempty, hreserved, hclosed, hword⟩ := hall n hmem
  have htext : IsClassText n :=
    ⟨isName_of_head hhead, hhyphen, hempty, hreserved, hclosed⟩
  exact ⟨htext.name, ⟨((Grammar.construct?_of_classText htext rfl).1).mpr hn, hword⟩⟩

theorem read_closure_of (hn : c.scope.SpellsClosure n) (hn' : c.scope.SpellsClosure n')
    (hs : s = "" ∨ Text.beginsWith "(" s = true) (h : (read c (n ++ s)).type = some t) :
    (read c (n' ++ s)).type = some t := by
  obtain ⟨hname, hclosure⟩ := isClosure_of_spellsClosure hn
  obtain ⟨hname', hclosure'⟩ := isClosure_of_spellsClosure hn'
  rw [type_read_eq_some, lexemes_signature hname hs] at h
  rw [type_read_eq_some, lexemes_signature hname' hs]
  obtain ⟨⟨ms, words⟩, ht, hd⟩ := h
  obtain ⟨words', ht'⟩ := Grammar.type_closure hclosure hclosure' ht
    fun i => i + n'.length - n.length
  have hplace : relocated (fun i => i + n'.length - n.length) ∘ shift n.length =
      shift n'.length := by
    funext l
    have hi : l.start + n.length + n'.length - n.length = l.start + n'.length := by omega
    simp [relocated, shift, hi]
  rw [List.map_map, hplace] at ht'
  refine ⟨_, ht', ?_⟩
  cases ms with
  | nil => exact hd
  | cons l ms => exact hd

/-- Names that are spelled like a closure are read alike with every signature. -/
theorem read_closure (hn : c.scope.SpellsClosure n) (hn' : c.scope.SpellsClosure n')
    (hs : s = "" ∨ Text.beginsWith "(" s = true) :
    (read c (n ++ s)).type = (read c (n' ++ s)).type :=
  Option.ext fun _ => ⟨read_closure_of hn hn' hs, read_closure_of hn' hn hs⟩

theorem read_absolute_closure (c : Context) :
    (read c "\\Closure").type = some (.atom "\\Closure") ∧
      (read c "\\Closure(): int").type = some (.atom "\\Closure") := by
  have hname : (lex "\\Closure").lexemes = [⟨.name, 0, "\\Closure", false⟩] := by decide +kernel
  have hsignature : (lex "\\Closure(): int").lexemes = [⟨.name, 0, "\\Closure", false⟩,
      ⟨.symbol, 8, "(", false⟩, ⟨.symbol, 9, ")", false⟩, ⟨.symbol, 10, ":", false⟩,
      ⟨.name, 12, "int", true⟩] := by decide +kernel
  rw [type_read_eq_some, type_read_eq_some, hname, hsignature]
  exact ⟨⟨⟨[], []⟩, rfl, rfl⟩, ⟨[], [12]⟩, rfl, rfl⟩

theorem lexemes_name (hn : IsName n) : (lex n).lexemes = [⟨.name, 0, n, false⟩] := by
  have hl := lexemes_signature (s := "") hn (.inl rfl)
  have hempty : (lex "").lexemes = [] := by simp [lex, lexFrom]
  rwa [String.append_empty, hempty] at hl

/-- A name that is not spelled like a closure is read as the class that it resolves to, and not with
a signature. -/
theorem read_class (hn : IsClassText n) (hform : ¬c.scope.SpellsClosure n)
    (ht : c.scope.templates.get? n = none) (hu : IsUncut (c.scope.resolve n)) :
    (read c n).type = some (.atom (c.scope.resolve n)) ∧ (read c (n ++ "(): int")).type = none := by
  have hread : ∀ rest, Follows ["("] rest → Answers (Grammar.type c)
      (⟨.name, 0, n, false⟩ :: rest) (some (.atom (c.scope.resolve n))) rest := fun rest =>
    Grammar.answers_classText hn rfl hform ht (Grammar.joinedType_uncut _ hu)
  constructor
  · rw [type_read_of_answers (lexemes_name hn.name) (hread [] (by simp [Follows]))]
    rfl
  · obtain ⟨tail, hs⟩ : ∃ tail, (lex "(): int").lexemes = ⟨.symbol, 0, "(", false⟩ :: tail :=
      ⟨(lex "(): int").lexemes.tail, by decide +kernel⟩
    have hl := lexemes_signature hn.name (s := "(): int") (.inr (by decide))
    rw [hs, List.map_cons] at hl
    exact type_read_of_answers hl (hread _ (by simp [Follows, shift]))

/-- The name of a closure is told by what it resolves to: a name for closures is read with any
signature as `\Closure` is, and any other name as the class that it resolves to. -/
def RecognisesClosure (c : Context) (n : String) : Prop :=
  if c.scope.resolve n = "\\Closure" then
    ∀ s, s = "" ∨ Text.beginsWith "(" s = true →
      (read c (n ++ s)).type = (read c ("\\Closure" ++ s)).type
  else (read c n).type = some (.atom (c.scope.resolve n))

/-- In every scope, whose namespace and imports are absolute, the name of a closure is told by what
it resolves to only where its spelling tells that too. -/
theorem recognisesClosure_iff (hs : c.scope.nameSpace = "" ∨ IsClassName c.scope.nameSpace)
    (hi : ∀ a target, c.scope.imports.get? a = some target → IsClassName target)
    (hn : IsClassText n) (ht : c.scope.templates.get? n = none) :
    RecognisesClosure c n ↔ (c.scope.resolve n = "\\Closure" ↔ c.scope.SpellsClosure n) := by
  have hnamed : ({ nameSpace := c.scope.nameSpace, imports := c.scope.imports } : Scope).IsNamed :=
    ⟨hs, hi, by simp, by simp⟩
  have hu : IsUncut (c.scope.resolve n) := (hnamed.resolve hn.name).uncut
  have habsolute : c.scope.SpellsClosure "\\Closure" := .inl rfl
  unfold RecognisesClosure
  by_cases hform : c.scope.SpellsClosure n
  · rw [iff_true_right hform]
    have halike : ∀ s, s = "" ∨ Text.beginsWith "(" s = true →
        (read c (n ++ s)).type = (read c ("\\Closure" ++ s)).type := fun s =>
      read_closure hform habsolute
    split
    · next hr => exact iff_of_true halike hr
    · next hr =>
      refine iff_of_false (fun hread => hr ?_) hr
      have hempty := halike "" (.inl rfl)
      rw [String.append_empty, String.append_empty, hread, (read_absolute_closure c).1] at hempty
      simpa [DocType.atom] using hempty
  · rw [iff_false_right hform]
    obtain ⟨hclass, hnone⟩ := read_class hn hform ht hu
    split
    · next hr =>
      refine iff_of_false (fun hread => ?_) (not_not_intro hr)
      have hsome : none = (read c "\\Closure(): int").type :=
        hnone.symm.trans (hread "(): int" (.inr (by decide)))
      rw [(read_absolute_closure c).2] at hsome
      cases hsome
    · next hr => exact iff_of_true hclass hr

/-- In a namespace, an imported `Closure` is told by what it resolves to if that is another
class. -/
theorem recognisesClosure_iff_imported :
    RecognisesClosure { scope := { nameSpace := "\\Foo", imports := [("Closure", "\\Bar")] } }
        "Closure" ∧
      ¬RecognisesClosure
        { scope := { nameSpace := "\\Foo", imports := [("Closure", "\\Closure")] } } "Closure" := by
  have hname : ∀ n ∈ ["\\Foo", "\\Bar", "\\Closure"], IsClassName n := fun n hn =>
    have hall : ∀ n ∈ ["\\Foo", "\\Bar", "\\Closure"], IsAbsolute n ∧ IsUncut n := by
      unfold IsUncut
      decide
    ⟨(hall n hn).1, (hall n hn).2⟩
  have himports : ∀ n, IsClassName n →
      ∀ a target, Bindings.get? [("Closure", n)] a = some target → IsClassName target := by
    intro n hn a target ha
    have hm : (a, target) ∈ [("Closure", n)] := mem_of_lookup ha
    obtain ⟨-, rfl⟩ : a = "Closure" ∧ target = n := by simpa using hm
    exact hn
  have htext : IsClassText "Closure" :=
    ⟨isName_of_head (by decide), by decide, by decide, by decide, by decide⟩
  constructor
  · refine (recognisesClosure_iff (.inr (hname _ (by simp))) (himports _ (hname _ (by simp))) htext
      rfl).mpr (iff_of_false (by decide +kernel) ?_)
    simp [Scope.SpellsClosure]
  · intro h
    have hiff := (recognisesClosure_iff (.inr (hname _ (by simp))) (himports _ (hname _ (by simp)))
      htext rfl).mp h
    have hspelled := hiff.mp (by decide +kernel)
    simp [Scope.SpellsClosure] at hspelled

/-- A class that is imported as `Closure` is read as a closure in the global namespace, and the
class of closures that is imported elsewhere is not. -/
theorem not_recognisesClosure :
    ¬RecognisesClosure { scope := { imports := [("Closure", "\\Foo\\Closure")] } } "Closure" ∧
      ¬RecognisesClosure
        { scope := { nameSpace := "\\Foo", imports := [("Closure", "\\Closure")] } } "Closure" := by
  constructor
  · unfold RecognisesClosure
    rw [if_neg (by decide +kernel)]
    decide +kernel
  · unfold RecognisesClosure
    rw [if_pos (by decide +kernel)]
    intro h
    have hsignature := h "(): int" (.inr (by decide))
    revert hsignature
    decide +kernel

end TypedTag
end PhpDoc
