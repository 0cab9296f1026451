import PhpDoc.Check.File
import PhpDoc.Proofs.Restyling
/-!
Tags whose types are put in their recommended spelling. A tag says what it said before, and nothing is
left to respell, unless the last word of its type is `integer` and an angle bracket follows.
-/
namespace PhpDoc
open Lexing

namespace TypedTag
variable {c : Context} {e : Extent} {text : List Char} {s after : Reader} {reading : Reading}
  {n m m' : Nat} {sp sp' : Bool} {ds : List Char} {rest : Lexing} {words : List Nat}

def said (t : TypedTag) : TypedTag :=
  { t with span := none }

def restyle (text : String) (t : TypedTag) : String :=
  match t.spelled, t.span with
  | some spelled, some span => Text.slice text 0 span.1 ++ spelled ++ Text.dropFirst span.2 text
  | _, _ => text

theorem toList_restyle {text : String} {t : TypedTag} {spelled : String} {span : Nat × Nat}
    (hs : t.spelled = some spelled) (hp : t.span = some span) : (restyle text t).toList =
      text.toList.take span.1 ++ spelled.toList ++ text.toList.drop span.2 := by
  simp [restyle, hs, hp, Text.slice, Text.dropFirst]

theorem readVariable_angle {l : Lexeme} {rest : List Lexeme} (hl : l.text = "<")
    (hk : l.kind = .symbol) : readVariable e ⟨l :: rest, []⟩ = none := by
  have hsign : ∀ x : String, x ≠ "<" → sign e x ⟨l :: rest, []⟩ = ("", ⟨l :: rest, []⟩) := by
    intro x hx
    simp [sign, hl, Ne.symm hx]
  rw [readVariable_eq, hsign "&" (by decide), hsign "..." (by decide)]
  simp [hk]

theorem length_dropWhile_le {p : Char → Bool} {xs zs : List Char} (h : xs <+: zs) :
    (xs.dropWhile p).length ≤ (zs.dropWhile p).length := by
  obtain ⟨ys, rfl⟩ := h
  rw [List.dropWhile_append]
  split
  · next he => simp [List.isEmpty_iff.mp he]
  · simp

/-- Of a text that does not begin with a blank, less is left if its beginning is dropped. -/
theorem trimList_drop_ne {ch : Char} {cs : List Char} {i : Nat} (hc : Text.isBlank ch = false)
    (hi : 0 < i) : Text.trimList ((ch :: cs).drop i) ≠ Text.trimList (ch :: cs) := by
  obtain ⟨j, rfl⟩ : ∃ j, i = j + 1 := ⟨i - 1, by omega⟩
  intro he
  have hlen := congrArg List.length he
  have hwhole : (Text.trimList (ch :: cs)).length = (cs.reverse.dropWhile Text.isBlank).length + 1 := by
    rw [Text.trimList, List.dropWhile_cons_of_neg (by simp [hc]), List.reverse_cons,
      List.dropWhile_append, List.length_reverse]
    split
    · next h => simp [List.isEmpty_iff.mp h, hc]
    · simp
  have hpart : (Text.trimList ((ch :: cs).drop (j + 1))).length ≤
      (cs.reverse.dropWhile Text.isBlank).length := by
    rw [List.drop_succ_cons, Text.trimList, List.length_reverse]
    refine length_dropWhile_le (List.reverse_prefix.mpr ?_)
    exact (List.dropWhile_suffix _).trans (List.drop_suffix _ _)
  omega

/-- After a torn word, something else is left of the tag. -/
theorem remainderOf_ne {ds : List Char} {stop : Nat} {l : Lexeme} {skipped ahead : List Lexeme}
    {sp : Bool} (hr : lexFrom 0 sp ds = ⟨l :: (skipped ++ ahead), stop⟩) (hl : l.text = "<") :
    remainderOf ds stop ⟨ahead, []⟩ ≠ remainderOf ds stop ⟨l :: (skipped ++ ahead), []⟩ := by
  obtain ⟨m, sp', es, hlexed, hes⟩ := exists_lexed_cons hr
  have hplace : m ≤ (ahead.head?.map Lexeme.start).getD stop := by
    cases hh : ahead.head? with
    | none =>
      rw [Option.map_none, Option.getD_none]
      have hle := le_stop m sp' es
      rw [hes] at hle
      exact hle
    | some k =>
      rw [Option.map_some, Option.getD_some]
      refine @le_start_of_mem es m sp' k ?_
      rw [hes]
      exact List.mem_append_right _ (List.mem_of_head? hh)
  generalize hq : (ahead.head?.map Lexeme.start).getD stop = q at hplace
  cases hlexed with
  | @cons _ _ _ _ gap tail rest _ ch k _ hgap hc ht hnil =>
    cases hnil
    have hchars : ch :: tail = ['<'] := String.ofList_injective hl
    obtain ⟨rfl, rfl⟩ := List.cons.inj hchars
    have hdrop : (gap ++ '<' :: ([] ++ es)).drop q = ('<' :: es).drop (q - gap.length) := by
      have hsum : q = gap.length + (q - gap.length) := by
        simp only [List.length_nil] at hplace
        omega
      rw [hsum, ← List.drop_drop, List.drop_left]
      simp
    intro he
    simp only [remainderOf, hq, hdrop, List.head?_cons, Option.map_some, Option.getD_some,
      Nat.zero_add, List.drop_left] at he
    refine @trimList_drop_ne '<' es _ (by decide) ?_ (String.ofList_injective he)
    simp only [List.length_nil] at hplace
    omega

inductive Form
  | typed (e : Extent)
  | template

namespace Form
variable {f : Form}

def read (c : Context) (text : String) : Form → TypedTag
  | typed e => TypedTag.read c text e
  | template => readTemplate c text

def extent : Form → Extent
  | typed e => e
  | template => .type

def name (text : String) : Form → Option String
  | typed _ => none
  | template => (readTemplateName ⟨(lex text).lexemes, []⟩).1

def start (text : String) : Form → Option Reader
  | typed _ => some ⟨(lex text).lexemes, []⟩
  | template =>
    let after := (readTemplateName ⟨(lex text).lexemes, []⟩).2
    if seesBound after.rest.head? then some ⟨after.rest.tail, []⟩ else none

def completed (c : Context) (name : Option String) (reading : Reading) (ds : List Char)
    (rest : Lexing) : Form → TypedTag
  | typed e => TypedTag.completed c e reading ds rest
  | template =>
    { type := some reading.type
      name
      remainder := remainderOf ds rest.stop ⟨rest.lexemes, []⟩
      spelled := some reading.spelled
      span := some reading.span }

/-- The type of a tag ends with the word `integer`, and an angle bracket follows. -/
def IsTorn (c : Context) (text : String) (f : Form) : Prop :=
  ∃ s reading after, f.start text = some s ∧
    readType c text.toList f.extent s = .ok (reading, after) ∧ Reader.Torn s after

theorem read_eq_completed {text : String} (hs : f.start text = some s)
    (h : readType c text.toList f.extent s = .ok (reading, after))
    (ha : Ahead text.toList (lex text).stop m after.rest ds rest) :
    f.read c text = f.completed c (f.name text) reading ds rest := by
  cases f with
  | typed e =>
    cases hs
    exact TypedTag.read_eq_completed h ha
  | template =>
    obtain ⟨hd, hr, hstop⟩ := ha
    simp only [start] at hs
    split at hs
    · next hb =>
      cases hs
      have hafter : after = moved m after.words ⟨rest.lexemes, []⟩ := by
        rw [moved, ← hr]
      have hremainder : remainderOf text.toList (lex text).stop after =
          remainderOf ds rest.stop ⟨rest.lexemes, []⟩ := by
        rw [hafter, hstop, remainderOf_moved hd]
      simp only [extent] at h
      simp only [read, readTemplate, hb, h, if_true, hremainder]
      rfl
    · cases hs

theorem spelled_of_none {text : String} (hs : f.start text = none) :
    (f.read c text).spelled = none := by
  cases f with
  | typed e => cases hs
  | template =>
    simp only [start] at hs
    split at hs
    · cases hs
    · next hb =>
      simp only [read, readTemplate, hb]
      rfl

theorem none_of_error {text : String} {e : Malformed} (hs : f.start text = some s)
    (h : readType c text.toList f.extent s = .error e) :
    (f.read c text).spelled = none ∧ (f.read c text).type = none := by
  cases f with
  | typed e =>
    cases hs
    simp only [extent] at h
    simp [read, TypedTag.read, h, Except.toOption]
  | template =>
    simp only [start] at hs
    split at hs
    · next hb =>
      cases hs
      simp only [extent] at h
      simp [read, readTemplate, hb, h]
    · cases hs

theorem isDelimited_lexeme (r : Respelling) (o : Option Lexeme) :
    isDelimited (o.map r.lexeme) = isDelimited o := by
  cases o with
  | none => rfl
  | some l =>
    have hd : Words.delimiters.contains (r.lexeme l).text = Words.delimiters.contains l.text :=
      Respelling.apply_text (fun w => Words.delimiters.contains w) (by decide)
    have hs : (r.lexeme l).spaced = l.spaced := rfl
    simp only [isDelimited, Option.map_some, Option.all_some, hd, hs]

theorem seesBound_lexeme (r : Respelling) (o : Option Lexeme) :
    seesBound (o.map r.lexeme) = seesBound o := by
  cases o with
  | none => rfl
  | some l =>
    have hb : (fun w => w == "of" || w == "as") (r.lexeme l).text =
        (fun w => w == "of" || w == "as") l.text :=
      Respelling.apply_text (fun w => w == "of" || w == "as") (by decide)
    simpa [seesBound] using hb

def namesTemplate (l : Lexeme) (ls : List Lexeme) : Bool :=
  l.kind == .name && (l.text.toList.head?).any Char.isAlpha &&
    (isDelimited ls.head? || seesBound ls.head?)

theorem readTemplateName_cons (l : Lexeme) (ls : List Lexeme) : readTemplateName ⟨l :: ls, []⟩ =
    if namesTemplate l ls then (some l.text, ⟨ls, []⟩) else (none, ⟨l :: ls, []⟩) :=
  rfl

/-- The name of a template is read alike if the words after `of` are respelled. -/
theorem readTemplateName_bound {ls : List Lexeme}
    (hb : seesBound (readTemplateName ⟨ls, []⟩).2.rest.head? = true) :
    ∃ front, ls = front ++ (readTemplateName ⟨ls, []⟩).2.rest.tail ∧ ∀ r : Respelling, ∃ l,
      readTemplateName ⟨front ++ (readTemplateName ⟨ls, []⟩).2.rest.tail.map r.lexeme, []⟩ =
        ((readTemplateName ⟨ls, []⟩).1,
          ⟨l :: (readTemplateName ⟨ls, []⟩).2.rest.tail.map r.lexeme, []⟩) ∧ seesBound (some l) = true := by
  cases ls with
  | nil => simp [readTemplateName, seesBound] at hb
  | cons l ls =>
    by_cases hn : namesTemplate l ls = true
    · rw [readTemplateName_cons, if_pos hn] at hb ⊢
      cases ls with
      | nil => simp [seesBound] at hb
      | cons k ls =>
        refine ⟨[l, k], rfl, fun r => ⟨k, ?_, hb⟩⟩
        have hn' : namesTemplate l (k :: ls.map r.lexeme) = true := hn
        exact (readTemplateName_cons _ _).trans (if_pos hn')
    · rw [readTemplateName_cons, if_neg hn] at hb ⊢
      refine ⟨[l], rfl, fun r => ⟨l, ?_, hb⟩⟩
      have hn' : ¬namesTemplate l (ls.map r.lexeme) = true := by
        rw [namesTemplate, List.head?_map, isDelimited_lexeme, seesBound_lexeme]
        exact hn
      exact (readTemplateName_cons _ _).trans (if_neg hn')

/-- Where the type of a tag begins; before another text that begins alike there, it begins at the same
place. -/
theorem start_eq {text : String} (hs : f.start text = some s) : ∃ n sp,
    s = ⟨(lexFrom n sp (text.toList.drop n)).lexemes, []⟩ ∧
    (lex text).stop = (lexFrom n sp (text.toList.drop n)).stop ∧
    ∀ (styled : String) (cs : List Char) (r : Respelling), styled.toList = text.toList.take n ++ cs →
      Alike (text.toList.drop n) cs →
      (lexFrom n sp cs).lexemes = (lexFrom n sp (text.toList.drop n)).lexemes.map r.lexeme →
      f.start styled = some ⟨(lexFrom n sp cs).lexemes, []⟩ ∧ f.name styled = f.name text ∧
        (lex styled).stop = (lexFrom n sp cs).stop := by
  cases f with
  | typed e =>
    cases hs
    refine ⟨0, false, rfl, rfl, fun styled cs r ht _ _ => ?_⟩
    rw [List.take_zero, List.nil_append] at ht
    simp [start, name, lex, ht]
  | template =>
    simp only [start] at hs
    split at hs
    · next hb =>
      cases hs
      obtain ⟨front, hfront, hread⟩ := readTemplateName_bound hb
      generalize (readTemplateName ⟨(lex text).lexemes, []⟩).2.rest.tail = bound at *
      have hlex : lexFrom 0 false text.toList = ⟨front ++ bound, (lex text).stop⟩ := by
        rw [← hfront]
        rfl
      obtain ⟨n, sp, cs₀, hl, hds⟩ := exists_lexed hlex
      have hdrop : text.toList.drop n = cs₀ := hl.drop_eq rfl
      rw [← hdrop] at hl hds
      refine ⟨n, sp, by rw [hds], by rw [hds], fun styled cs r ht ha hcs => ?_⟩
      obtain ⟨before, hbefore, hl'⟩ := hl.replace ha.endsToo
      have hlen : before.length = n := by
        have hlen₁ := congrArg List.length hbefore
        have hlen₂ := hl.length_eq
        rw [List.length_append] at hlen₁
        omega
      have htake : text.toList.take n = before := by
        rw [hbefore, List.take_left' hlen]
      have hstyled : lex styled = ⟨front ++ bound.map r.lexeme, (lexFrom n sp cs).stop⟩ := by
        rw [lex, ht, htake, hl'.lexFrom_eq, hcs, hds]
      obtain ⟨l, hname, hbound⟩ := hread r
      simp [start, name, hstyled, hname, hbound, hcs, hds]
    · cases hs

theorem type_completed {name : Option String} : (f.completed c name reading ds rest).type ≠ none := by
  cases f with
  | typed e => exact Option.some_ne_none _
  | template => exact Option.some_ne_none _

theorem spelled_completed (name : Option String) :
    (f.completed c name reading ds rest).spelled = some reading.spelled := by
  cases f with
  | typed e => rfl
  | template => rfl

theorem span_completed (name : Option String) :
    (f.completed c name reading ds rest).span = some reading.span := by
  cases f with
  | typed e => rfl
  | template => rfl

theorem said_completed (name : Option String) (span : Nat × Nat) :
    said (f.completed c name { reading with span } ds rest) =
      said (f.completed c name reading ds rest) := by
  cases f with
  | typed e => rfl
  | template => rfl

/-- After a torn word, something else is said. -/
theorem completed_ne {name : Option String} {reading' : Reading} {l : Lexeme}
    {skipped ahead : List Lexeme} {stop : Nat}
    (hB : lexFrom 0 sp ds = ⟨l :: (skipped ++ ahead), stop⟩) (hl : l.text = "<")
    (hk : l.kind = .symbol) : said (f.completed c name reading' ds ⟨ahead, stop⟩) ≠
      said (f.completed c name reading ds ⟨l :: (skipped ++ ahead), stop⟩) := by
  intro he
  have hremainder := congrArg TypedTag.remainder he
  cases f with
  | typed e =>
    have hname := congrArg TypedTag.name he
    simp only [said, completed, TypedTag.completed, readVariable_angle hl hk, ite_self,
      Option.map_none, Option.getD_none] at hname hremainder
    rw [Option.map_eq_none_iff] at hname
    rw [hname] at hremainder
    exact remainderOf_ne hB hl hremainder
  | template => exact remainderOf_ne hB hl hremainder

theorem isTorn_iff {text : String} (hs : f.start text = some s)
    (hread : readType c text.toList f.extent s = .ok (reading, after)) :
    f.IsTorn c text ↔ Reader.Torn s after := by
  constructor
  · rintro ⟨s', reading', after', hs', hr, ht⟩
    rw [hs] at hs'
    cases hs'
    rw [hread] at hr
    cases hr
    exact ht
  · exact fun ht => ⟨s, reading, after, hs, hread, ht⟩

/-- A tag says the same with its type in the recommended spelling, and nothing is left to respell. -/
structure Keeps (c : Context) (text : String) (f : Form) : Prop where
  same : said (f.read c (restyle text (f.read c text))) = said (f.read c text)
  done : ∀ code tag args, tag.text = restyle text (f.read c text) →
    Event.spelling code tag (f.read c tag.text) args = []

theorem keeps_of_none {text : String} (h : (f.read c text).spelled = none) : f.Keeps c text := by
  have hsame : restyle text (f.read c text) = text := by
    simp [restyle, h]
  refine ⟨by rw [hsame], fun code tag args htag => ?_⟩
  rw [htag, hsame, Event.spelling, h]

theorem keeps_iff_of_ok {text : String} (hs : f.start text = some s)
    (hread : readType c text.toList f.extent s = .ok (reading, after)) :
    f.Keeps c text ↔ ¬Reader.Torn s after := by
  obtain ⟨n, sp, rfl, hstop, hstyle⟩ := start_eq hs
  obtain ⟨first, others, m, sp', ds, place, m', hR⟩ := exists_respelled hread
  have hahead := hR.ahead_before
  rw [← hstop] at hahead
  have hbefore := read_eq_completed hs hread hahead
  have htext : (restyle text (f.read c text)).toList =
      respelled text.toList after.words first others ds := by
    rw [hbefore, toList_restyle (spelled_completed _) (span_completed _), hR.span, hR.spelled,
      respelled, hR.drop]
  obtain ⟨hs', hname, hstop'⟩ := hstyle _ _ ⟨after.words, place⟩
    (htext.trans hR.recut.split) hR.recut.alike (congrArg Reader.rest hR.reader_eq)
  have hahead' := hR.ahead_after
  rw [← hstop', ← htext] at hahead'
  constructor
  · rintro ⟨hsaid, -⟩ ht
    rw [hbefore] at hsaid
    cases hread' : readType c (restyle text (f.read c text)).toList f.extent ⟨(lexFrom n sp
        ((respelled text.toList after.words first others ds).drop n)).lexemes, []⟩ with
    | error e =>
      have htype := congrArg TypedTag.type hsaid
      rw [hbefore] at hread' hs'
      exact type_completed (htype.symm.trans (none_of_error hs' hread').2)
    | ok p =>
      obtain ⟨reading', after'⟩ := p
      have hread'' := hread'
      rw [htext] at hread''
      obtain ⟨l, skipped, ahead, stop, hB, hrest, hl, hk⟩ := hR.ahead_of_torn ht hread''
      have hafter : Ahead _ _ m' after'.rest ds ⟨ahead, stop⟩ :=
        ⟨hahead'.drop, hrest, hahead'.stop.trans (by rw [hB])⟩
      rw [← hbefore, read_eq_completed hs' hread' hafter, hname, hbefore, hB] at hsaid
      exact completed_ne hB hl hk hsaid
  · intro ht
    have hread' : readType c (restyle text (f.read c text)).toList f.extent ⟨(lexFrom n sp
        ((respelled text.toList after.words first others ds).drop n)).lexemes, []⟩ =
        .ok ({ reading with span := (first.start, m') },
          Respelling.reader ⟨after.words, place⟩ after) := by
      rw [htext]
      exact hR.readType_eq ht
    have hafter := read_eq_completed hs' hread' hahead'
    rw [hname] at hafter
    refine ⟨?_, fun code tag args htag => ?_⟩
    · rw [hafter, said_completed, hbefore]
    · have hslice := hR.slice_eq htext
      rw [htag, hafter, Event.spelling, spelled_completed, span_completed]
      simp [Event.when, htag, hslice]

/-- A tag keeps what it says, unless the last word of its type is `integer` and an angle bracket
follows. -/
theorem keeps_iff (c : Context) (text : String) (f : Form) : f.Keeps c text ↔ ¬f.IsTorn c text := by
  cases hs : f.start text with
  | none =>
    refine iff_of_true (keeps_of_none (spelled_of_none hs)) ?_
    rintro ⟨s, _, _, hs', -⟩
    rw [hs] at hs'
    cases hs'
  | some s =>
    cases hread : readType c text.toList f.extent s with
    | error e =>
      refine iff_of_true (keeps_of_none (none_of_error hs hread).1) ?_
      rintro ⟨s', reading, after, hs', hr, -⟩
      rw [hs] at hs'
      cases hs'
      rw [hread] at hr
      cases hr
    | ok p =>
      rw [isTorn_iff hs hread]
      exact keeps_iff_of_ok hs hread

end Form
end TypedTag

def Report.others (r : Report) : List (String × String) :=
  (r.findings.filter fun f => !f.fixable).map fun f => (f.code, f.message)

/-- A check of a fixed file may find what it did not find before the fix of a torn word. -/
theorem not_settled : ¬∀ (config : Config) (file source : String), config.checksStyle = true →
    config.fixes = true → config.disabled = [] →
      (∀ f ∈ (check config file (check config file source).source).findings, f.fixable = false) ∧
      (check config file (check config file source).source).others.Perm
        (check config file source).others := by
  intro h
  have hperm := (h { fixes := true } "a"
    "<?php\n/** @return integer <b>x</b> */\nfunction f(): int \x7b\x7d\n" rfl rfl rfl).2
  revert hperm
  decide +kernel

end PhpDoc
