import PhpDoc.Proofs.Changesets
import PhpDoc.Proofs.FixOutcomes
import PhpDoc.Proofs.Replacements
import PhpDoc.Proofs.SettledEvents
/-!
The fixes of a check as a plan. Where every type that is respelled keeps to one line, and all readings
of a tag respell it alike, the fixes of a check replace in each tag what the one rewrite of its type
puts there, and the fixed file has the tokens of the file that are left under other numbers.
-/
namespace PhpDoc

namespace Piece

theorem Place.after_ne (p : Place) {s : List Char} (hs : s ≠ []) : p.after s ≠ p := by
  unfold Place.after
  have hlength := List.length_pos_of_ne_nil hs
  intro h
  split at h
  · have := (Place.mk.inj h).2
    omega
  · have := (Place.mk.inj h).1
    omega

/-- The place before a piece, where pieces are not empty, is no later place. -/
theorem after_take_ne {p : Place} {ps : List Piece} (h : Lined ps) (hne : ∀ q ∈ ps, q.text ≠ [])
    {i j : Nat} (hij : i < j) (hi : i < ps.length) :
    p.after (joined (ps.take j)) ≠ p.after (joined (ps.take i)) := by
  have happart := (h.take j).apart i
  have htake : (ps.take j).take i = ps.take i := by
    rw [List.take_take, Nat.min_eq_left (Nat.le_of_lt hij)]
  have hjoined : joined (ps.take j) = joined (ps.take i) ++ joined ((ps.take j).drop i) := by
    rw [joined, joined, joined, ← List.flatMap_append, ← htake, List.take_append_drop]
  rw [htake] at happart
  rw [hjoined, Place.after_append p happart]
  refine Place.after_ne _ fun hnil => hne ps[i] (List.getElem_mem hi) ?_
  have hmem : ps[i] ∈ (ps.take j).drop i := by
    refine List.mem_iff_getElem.mpr ⟨0, by simp; omega, by simp⟩
  exact List.flatMap_eq_nil_iff.mp hnil _ hmem

end Piece

/-- Two tokens of a file at one place are the same. -/
theorem Tokens.eq_of_place {source : String} {i j : Nat} {t u : Token}
    (ht : (tokenize source)[i]? = some t) (hu : (tokenize source)[j]? = some u)
    (hline : t.line = u.line) (hcolumn : t.column = u.column) : i = j := by
  have hlined : Piece.Lined (Piece.assign none (Piece.cut false source.toList)) :=
    Piece.lined_congr (Piece.assign_text _ _) (Piece.cut_lined _ _)
  have hnonempty : ∀ q ∈ Piece.assign none (Piece.cut false source.toList), q.text ≠ [] := by
    intro q hq
    obtain ⟨n, hn⟩ := List.mem_iff_getElem?.mp hq
    obtain ⟨p, hp, htext, -⟩ := Piece.getElem?_of_assign hn
    exact htext ▸ (Piece.cut_cover false source.toList).nonempty p (List.mem_of_getElem? hp)
  have hplace : ∀ {n v}, (tokenize source)[n]? = some v →
      n < (Piece.assign none (Piece.cut false source.toList)).length ∧
      (⟨v.line, v.column⟩ : Piece.Place) = ({} : Piece.Place).after (Piece.joined
        ((Piece.assign none (Piece.cut false source.toList)).take n)) := by
    intro n v hv
    refine ⟨?_, ?_⟩
    · have hlength := congrArg List.length (map_piece_tokenize source)
      rw [List.length_map, Array.length_toList] at hlength
      exact hlength ▸ Tokens.lt_size hv
    · rw [Piece.Place.after_start, ← source_take_tokenize, (Tokens.place_eq hv).1,
        (Tokens.place_eq hv).2]
  obtain ⟨hi, hplacei⟩ := hplace ht
  obtain ⟨hj, hplacej⟩ := hplace hu
  have hsame : ({} : Piece.Place).after (Piece.joined
      ((Piece.assign none (Piece.cut false source.toList)).take i)) = ({} : Piece.Place).after
        (Piece.joined ((Piece.assign none (Piece.cut false source.toList)).take j)) := by
    rw [← hplacei, ← hplacej, hline, hcolumn]
  rcases Nat.lt_trichotomy i j with hlt | heq | hlt
  · exact absurd hsame.symm (Piece.after_take_ne hlined hnonempty hlt hi)
  · exact heq
  · exact absurd hsame (Piece.after_take_ne hlined hnonempty hlt hj)

def Replacement.changes (p : Replacement) : Changeset :=
  Report.replacements p.first p.last p.text

theorem Replacement.textOf_changes (p : Replacement) (h : p.first ≤ p.last) (i : Nat) :
    Report.textOf i p.changes = if i = p.first then some p.text
      else if p.first < i ∧ i ≤ p.last then some "" else none := by
  have hbounds : (0 : Int) ≤ p.first ∧ (p.first : Int) ≤ p.last := by omega
  have htext := Report.textOf_replacements i hbounds p.text
  simp only [Int.toNat_natCast, Report.Request.textAt] at htext
  rw [Replacement.changes, htext]
  simp only [Int.natCast_inj]
  by_cases hi : i = p.first
  · rw [if_pos hi, if_pos hi]
  · rw [if_neg hi, if_neg hi]
    refine if_congr ?_ rfl rfl
    omega

/-- After some replacements a token has its text or what one of those around it gives. -/
theorem Replacement.textOf_all {ps : List Replacement} (hps : ∀ p ∈ ps, p.first ≤ p.last) (i : Nat) :
    (Report.textOf i (ps.flatMap changes) = none ∧ ∀ p ∈ ps, ¬(p.first ≤ i ∧ i ≤ p.last)) ∨
    ∃ p ∈ ps, (p.first ≤ i ∧ i ≤ p.last) ∧
      Report.textOf i (ps.flatMap changes) = some (if i = p.first then p.text else "") := by
  induction ps with
  | nil => exact .inl ⟨rfl, by simp⟩
  | cons p ps ih =>
    obtain ⟨hle, hps⟩ := List.forall_mem_cons.mp hps
    rw [List.flatMap_cons, Report.textOf_append, p.textOf_changes hle]
    rcases ih hps with ⟨htext, hnone⟩ | ⟨q, hq, hin, htext⟩
    · rw [htext, Option.none_or]
      by_cases hin : p.first ≤ i ∧ i ≤ p.last
      · refine .inr ⟨p, List.mem_cons_self, hin, ?_⟩
        split
        · rfl
        · rw [if_pos (by omega)]
      · refine .inl ⟨?_, List.forall_mem_cons.mpr ⟨hin, hnone⟩⟩
        rw [if_neg (by omega), if_neg (by omega)]
    · rw [htext]
      exact .inr ⟨q, List.mem_cons_of_mem p hq, hin, rfl⟩

namespace Report
variable {r : Report} {source : String} {e : Event} {es : List Event} {w : Rewrite}

/-- The rewrite of a type is written as its replacement. -/
theorem writeType_of_ok {r' : Report} (hc : r.changeset = some [])
    (h : r.writeType w.tag w.span w.spelled = .ok r') :
    ∃ p, w.replacement? = some p ∧ r'.changeset = some p.changes := by
  unfold writeType at h
  simp only at h
  split at h
  · rename_i before first after last hfirst hlast
    refine ⟨⟨first, last, _⟩, by rw [Rewrite.replacement?]; simp only [hfirst, hlast]; rfl, ?_⟩
    split at h
    · unfold replace at h
      rw [hc] at h
      simp only at h
      split at h
      · cases h
        simp [Replacement.changes]
      · cases h
    · cases h
  · cases h

def made (r : Report) (e : Event) : Option Replacement :=
  if (r.findingOf? e).any r.admits && r.fixing then e.rewrite?.bind Rewrite.replacement? else none

def madeAll (r : Report) : List Event → List Replacement
  | [] => []
  | e :: es => (r.made e).toList ++ (r.enter e).1.madeAll es

theorem Idle.replaced_eq (hr : r.Idle (tokenize source)) (he : Fixable (tokenize source) e) :
    r.replaced e = (r.made e).toList.flatMap Replacement.changes := by
  cases e with
  | finding | note => simp [replaced, made, Event.rewrite?]
  | style code tag span spelled args =>
    obtain ⟨-, -, htag, c, f, hspelled, hspan⟩ := he
    generalize hfinding : r.findingAt .warning true code.template tag.place code.id args = finding
    simp only [replaced, made, findingOf?, hfinding, Option.any_some, Event.rewrite?,
      Option.bind_some]
    have htold := tell_idle hr finding
    obtain ⟨changes, hwrite, -, -⟩ := htold.fix_eq htag hspelled hspan
    split
    · simp only [hwrite, Option.getD_some]
      have hbegin : (r.tell finding).1.beginChanges =
          .ok { (r.tell finding).1 with changeset := some [] } := by
        rw [beginChanges, htold.closed]
      rw [hbegin] at hwrite
      obtain ⟨p, hp, hchanges⟩ := writeType_of_ok (w := ⟨tag, span, spelled⟩) rfl hwrite
      rw [hp]
      obtain rfl : changes = p.changes := Option.some.inj hchanges
      simp
    · rfl

theorem Idle.replacedAll_eq (hr : r.Idle (tokenize source))
    (hes : ∀ e ∈ es, Fixable (tokenize source) e) :
    r.replacedAll es = (r.madeAll es).flatMap Replacement.changes := by
  induction es generalizing r with
  | nil => rfl
  | cons e es ih =>
    obtain ⟨he, hes⟩ := List.forall_mem_cons.mp hes
    rw [replacedAll, madeAll, hr.replaced_eq he, ih (hr.enter he) hes, List.flatMap_append]

/-- What is made is the replacement of a rewrite. -/
theorem exists_of_mem_madeAll {p : Replacement} (hp : p ∈ r.madeAll es) :
    ∃ e ∈ es, e.rewrite?.bind Rewrite.replacement? = some p := by
  induction es generalizing r with
  | nil => cases hp
  | cons e es ih =>
    rcases List.mem_append.mp hp with hp | hp
    · have hmade := Option.mem_toList.mp hp
      rw [made] at hmade
      split at hmade
      · exact ⟨e, List.mem_cons_self, hmade⟩
      · cases hmade
    · obtain ⟨e', he', hsome⟩ := ih hp
      exact ⟨e', List.mem_cons_of_mem e he', hsome⟩

theorem Idle.findingOf?_enter (hr : r.Idle (tokenize source)) (he : Fixable (tokenize source) e) :
    (r.enter e).1.findingOf? = r.findingOf? := by
  obtain ⟨⟨n, hn⟩, -⟩ := hr.enter_eq he
  rw [hn]
  rfl

theorem admits_of_mem_hold {f g : Finding} (h : g ∈ hold r.disabled r.findings f)
    (hnew : g ∉ r.findings) : g = f ∧ r.admits f = true := by
  unfold hold at h
  split at h
  · rename_i hadmits
    rcases List.mem_append.mp h with hmem | hmem
    · exact absurd hmem hnew
    · exact ⟨List.mem_singleton.mp hmem, hadmits⟩
  · exact absurd h hnew

/-- The replacement of every spelling that is held is made. -/
theorem Idle.exists_made (hr : r.Idle (tokenize source)) (hes : ∀ e ∈ es, Fixable (tokenize source) e)
    (hfixing : r.fixing = true) {g : Finding} (hg : g ∈ (r.enterAll es).1.findings) :
    g ∈ r.findings ∨ ∃ e ∈ es, r.findingOf? e = some g ∧
      ∀ p, e.rewrite?.bind Rewrite.replacement? = some p → p ∈ r.madeAll es := by
  induction es generalizing r with
  | nil => exact .inl hg
  | cons e es ih =>
    obtain ⟨he, hes⟩ := List.forall_mem_cons.mp hes
    obtain ⟨hfindings, hsame⟩ := hr.enter_findings he
    rw [enterAll_cons] at hg
    rcases ih (hr.enter he) hes (hsame.trans hfixing) hg with hheld | ⟨e', he', hfound, hmade⟩
    · by_cases hold : g ∈ r.findings
      · exact .inl hold
      · refine .inr ⟨e, List.mem_cons_self, ?_⟩
        rw [hfindings] at hheld
        cases hf : r.findingOf? e with
        | none =>
          rw [hf] at hheld
          exact absurd hheld hold
        | some f =>
          rw [hf] at hheld
          obtain ⟨rfl, hadmits⟩ := admits_of_mem_hold hheld hold
          refine ⟨rfl, fun p hp => List.mem_append_left _ ?_⟩
          rw [made, hf, hfixing, hp, Option.any_some, hadmits]
          exact List.mem_singleton.mpr rfl
    · rw [hr.findingOf?_enter he] at hfound
      exact .inr ⟨e', List.mem_cons_of_mem e he', hfound,
        fun p hp => List.mem_append_right _ (hmade p hp)⟩

/-- What is found is held, or something held says the same. -/
theorem exists_sameFinding {disabled : List String} {f : Finding}
    (hf : disabled.contains f.code = false)
    {fs : List Finding} (hmem : f ∈ fs) (held : List Finding) :
    ∃ g ∈ fs.foldl (hold disabled) held, sameFinding f g = true := by
  induction fs generalizing held with
  | nil => cases hmem
  | cons f' fs ih =>
    rcases List.mem_cons.mp hmem with rfl | hmem
    · rw [List.foldl_cons]
      have hfirst : ∃ g ∈ hold disabled held f, sameFinding f g = true := by
        unfold hold
        rw [hf, Bool.not_false, Bool.true_and]
        by_cases hany : held.any (sameFinding f) = true
        · obtain ⟨g, hg, hsame⟩ := List.any_eq_true.mp hany
          rw [hany]
          exact ⟨g, hg, hsame⟩
        · rw [Bool.not_eq_true] at hany
          rw [hany]
          exact ⟨f, by simp, by simp [sameFinding]⟩
      obtain ⟨g, hg, hsame⟩ := hfirst
      exact ⟨g, subset_foldl_hold _ _ _ hg, hsame⟩
    · exact ih hmem _

end Report

section
variable {config : Config} {file source : String}

/-- The places of two findings are the same if they are at the same token, all tokens past the end
counting as the last one. -/
theorem locate_eq_iff (config : Config) (file : String) {i j : Nat} :
    ((Report.begin config file (tokenize source)).locate i).line =
        ((Report.begin config file (tokenize source)).locate j).line ∧
      ((Report.begin config file (tokenize source)).locate i).column =
        ((Report.begin config file (tokenize source)).locate j).column ↔
    min i ((tokenize source).size - 1) = min j ((tokenize source).size - 1) := by
  simp only [Report.locate, Report.begin, Int.toNat_natCast]
  rcases Nat.eq_zero_or_pos (tokenize source).size with hzero | hpos
  · simp [hzero]
  · have hget : ∀ n, (tokenize source)[min n ((tokenize source).size - 1)]? =
        some (tokenize source)[min n ((tokenize source).size - 1)] :=
      fun n => Array.getElem?_eq_getElem (by omega)
    simp only [hget]
    constructor
    · rintro ⟨hline, hcolumn⟩
      exact Tokens.eq_of_place (hget i) (hget j) (Int.ofNat_inj.mp hline) (Int.ofNat_inj.mp hcolumn)
    · intro h
      simp only [h, and_self]

theorem sameFinding_findingAt_iff {code code' : Code} {i j : Nat} {args args' : List String}
    {severity severity' : Severity} {fixable fixable' : Bool} : Report.sameFinding
      ((Report.begin config file (tokenize source)).findingAt severity fixable code.template i code.id
        args)
      ((Report.begin config file (tokenize source)).findingAt severity' fixable' code'.template j
        code'.id args') = true ↔
    code = code' ∧ min i ((tokenize source).size - 1) = min j ((tokenize source).size - 1) ∧
      Text.fill code.template args = Text.fill code'.template args' := by
  have hcode : code.id = code'.id ↔ code = code' :=
    ⟨fun h => by_contra fun hne => Code.id_ne hne h, congrArg Code.id⟩
  simp only [Report.sameFinding, Report.findingAt, Bool.and_eq_true, beq_iff_eq, hcode, and_assoc]
  rw [← locate_eq_iff config file, and_assoc]

end

theorem Reader.torn_iff {s t : Reader} : Torn s t ↔ t.rest <:+ s.rest ∧
    (∃ d ∈ (s.rest.take (s.rest.length - t.rest.length)).getLast?,
      d.start ∈ t.words ∧ d.text = "integer") ∧ ∃ l ∈ t.rest.head?, l.text = "<" := by
  constructor
  · rintro ⟨read, d, l, rest, hread, hrest, hword, hinteger, hangle⟩
    have hfront : s.rest.take (s.rest.length - t.rest.length) = read ++ [d] := by
      rw [hread, List.append_cons, List.length_append, Nat.add_sub_cancel, List.take_left]
    refine ⟨⟨read ++ [d], by simp [hread]⟩, ⟨d, ?_, hword, hinteger⟩, l, ?_, hangle⟩
    · rw [hfront, List.getLast?_concat]
      rfl
    · rw [hrest]
      rfl
  · rintro ⟨⟨front, hfront⟩, ⟨d, hd, hword, hinteger⟩, l, hl, hangle⟩
    have htake : s.rest.take (s.rest.length - t.rest.length) = front := by
      rw [← hfront, List.length_append, Nat.add_sub_cancel, List.take_left]
    rw [htake] at hd
    obtain ⟨read, rfl⟩ := List.getLast?_eq_some_iff.mp hd
    obtain ⟨rest, hrest⟩ := List.head?_eq_some_iff.mp hl
    exact ⟨read, d, l, rest, by simp [← hfront], hrest, hword, hinteger, hangle⟩

instance (s t : Reader) : Decidable (Reader.Torn s t) :=
  decidable_of_iff _ Reader.torn_iff.symm

instance (c : Context) (text : String) (f : TypedTag.Form) : Decidable (f.IsTorn c text) :=
  match hs : f.start text with
  | none => isFalse fun ⟨_, _, _, hstart, _⟩ => by
    rw [hs] at hstart
    cases hstart
  | some s =>
    match hread : TypedTag.readType c text.toList f.extent s with
    | .ok (reading, after) => decidable_of_iff _ (TypedTag.Form.isTorn_iff hs hread).symm
    | .error e => isFalse fun ⟨_, _, _, hstart, hok, _⟩ => by
      rw [hs] at hstart
      cases hstart
      rw [hread] at hok
      cases hok

theorem TagReading.of_rewrite? {r : TagReading} {w : Rewrite} (h : r.rewrite? = some w) :
    w.tag = r.tag ∧ r.typed.spelled = some w.spelled ∧ r.typed.span = some w.span := by
  unfold TagReading.rewrite? at h
  split at h
  · rename_i hspelled hspan
    split at h
    · cases h
      exact ⟨rfl, hspelled, hspan⟩
    · cases h
  · cases h

namespace Check

def rewrites (ts : Tokens) : List Rewrite :=
  (readings ts).filterMap TagReading.rewrite?

def rewriteAt? (ts : Tokens) (place : Nat) : Option Rewrite :=
  (rewrites ts).find? fun w => w.tag.place == place

/-- Rewrites that leave what is read as it is. No type that is respelled ends with the word `integer`
before an angle bracket, or goes on to another line within quotes, and all readings of a tag respell
it alike. -/
structure Steady (ts : Tokens) : Prop where
  whole : ∀ r ∈ readings ts, r.rewrite? ≠ none → ¬r.form.IsTorn r.context r.tag.text
  quotes : ∀ w ∈ rewrites ts, TypedTag.QuotesKeepLine w.tag.text w.span
  agree : ∀ r ∈ readings ts, ∀ r' ∈ readings ts, r.tag = r'.tag → r.rewrite? = r'.rewrite?

instance (ts : Tokens) : Decidable (Steady ts) :=
  decidable_of_iff ((∀ r ∈ readings ts, r.rewrite? ≠ none → ¬r.form.IsTorn r.context r.tag.text) ∧
      (∀ w ∈ rewrites ts, TypedTag.QuotesKeepLine w.tag.text w.span) ∧
      ∀ r ∈ readings ts, ∀ r' ∈ readings ts, r.tag = r'.tag → r.rewrite? = r'.rewrite?)
    ⟨fun ⟨hwhole, hquotes, hagree⟩ => ⟨hwhole, hquotes, hagree⟩, fun h => ⟨h.1, h.2, h.3⟩⟩

namespace Steady
variable {source : String} {w : Rewrite} {r : TagReading} {place : Nat}

theorem isOf (h : Steady (tokenize source)) (hw : w ∈ rewrites (tokenize source)) :
    w.IsOf (tokenize source) := by
  obtain ⟨r, hr, hsome⟩ := List.mem_filterMap.mp hw
  obtain ⟨htag, hspelled, hspan⟩ := TagReading.of_rewrite? hsome
  refine ⟨htag ▸ isNamedIn_of_mem_readings hr, ⟨r.context, r.form, ?_, ?_⟩, h.quotes w hw⟩
  · rw [htag]
    exact hspelled
  · rw [htag]
    exact hspan

/-- The rewrite at the place of a tag is that of each of its readings. -/
theorem rewriteAt?_eq (h : Steady (tokenize source)) (hr : r ∈ readings (tokenize source)) :
    rewriteAt? (tokenize source) r.tag.place = r.rewrite? := by
  cases hfind : rewriteAt? (tokenize source) r.tag.place with
  | some w =>
    obtain ⟨r', hr', hsome⟩ := List.mem_filterMap.mp (List.mem_of_find?_eq_some hfind)
    have hplace : w.tag.place = r.tag.place := by simpa using List.find?_some hfind
    rw [(TagReading.of_rewrite? hsome).1] at hplace
    have htag := (isNamedIn_of_mem_readings hr').eq_of_place (isNamedIn_of_mem_readings hr) hplace
    rw [← hsome, h.agree r' hr' r hr htag]
  | none =>
    cases hsome : r.rewrite? with
    | none => rfl
    | some w =>
      have hnone := List.find?_eq_none.mp hfind w (List.mem_filterMap.mpr ⟨r, hr, hsome⟩)
      rw [(TagReading.of_rewrite? hsome).1] at hnone
      simp at hnone

def plan (h : Steady (tokenize source)) : Plan (tokenize source) where
  at? place := (rewriteAt? (tokenize source) place).bind Rewrite.replacement?
  suits place p hp := by
    obtain ⟨w, hfind, hsome⟩ := Option.bind_eq_some_iff.mp hp
    have hplace : w.tag.place = place := by simpa using List.find?_some hfind
    have hof := h.isOf (List.mem_of_find?_eq_some hfind)
    obtain ⟨p', a, b, left, right, hp', hsplits⟩ := hof.exists_replacement
    obtain rfl : p = p' := Option.some.inj (hsome.symm.trans hp')
    exact hplace ▸ hof.suits hsplits

theorem at?_plan (h : Steady (tokenize source)) (hr : r ∈ readings (tokenize source)) :
    h.plan.at? r.tag.place = r.rewrite?.bind Rewrite.replacement? :=
  congrArg (Option.bind · Rewrite.replacement?) (h.rewriteAt?_eq hr)

theorem at?_tag (h : Steady (tokenize source)) (hw : w ∈ rewrites (tokenize source)) :
    h.plan.at? w.tag.place = w.replacement? := by
  obtain ⟨r, hr, hsome⟩ := List.mem_filterMap.mp hw
  rw [(TagReading.of_rewrite? hsome).1, h.at?_plan hr, hsome]
  rfl

theorem exists_of_at? (h : Steady (tokenize source)) {p : Replacement}
    (hp : h.plan.at? place = some p) :
    ∃ w ∈ rewrites (tokenize source), w.tag.place = place ∧ w.replacement? = some p := by
  obtain ⟨w, hfind, hsome⟩ := Option.bind_eq_some_iff.mp hp
  exact ⟨w, List.mem_of_find?_eq_some hfind, by simpa using List.find?_some hfind, hsome⟩

end Steady

section
variable {config : Config} {file source : String}

/-- Where spelling is checked, the rewrites of a file are told. -/
theorem rewrites_wanted (source : String) (hstyle : config.checksStyle = true) :
    (wanted config source).filterMap Event.rewrite? = rewrites (tokenize source) := by
  rw [wanted, List.filterMap_filter, rewrites, ← rewrites_events]
  refine List.filterMap_congr fun e _ => ?_
  cases e with
  | style => simp [Event.wanted, hstyle]
  | finding | note => simp [Event.rewrite?]

def made (config : Config) (file source : String) : List Replacement :=
  (Report.begin config file (tokenize source)).madeAll (wanted config source)

theorem replaced_eq (config : Config) (file source : String) :
    replaced config file source = (made config file source).flatMap Replacement.changes :=
  (idle_begin config file source).replacedAll_eq (fixable_of_mem_wanted config source)

theorem ne_of_isPlain {code code' : Code} (h : code.isStyle = true) (h' : code'.isPlain = true) :
    code ≠ code' := by
  rintro rfl
  simp [Code.isPlain, h] at h'

theorem place_lt_size {w : Rewrite} (h : Steady (tokenize source))
    (hw : w ∈ rewrites (tokenize source)) : w.tag.place < (tokenize source).size := by
  obtain ⟨u, stop, hu, -⟩ := (h.isOf hw).tag.spec
  exact Tokens.lt_size hu

/-- Where spelling is checked, fixes are wanted and no code is disabled, the replacements that are
made are those of the rewrites of the file. -/
theorem mem_made_iff (file : String) (hstyle : config.checksStyle = true) (hfixes : config.fixes = true)
    (hdisabled : config.disabled = []) (h : Steady (tokenize source)) {p : Replacement} :
    p ∈ made config file source ↔ ∃ place, h.plan.at? place = some p := by
  have hrewrites := rewrites_wanted source hstyle
  have hmem : ∀ {e w}, e ∈ wanted config source → e.rewrite? = some w →
      w ∈ rewrites (tokenize source) := fun he hsome =>
    hrewrites ▸ List.mem_filterMap.mpr ⟨_, he, hsome⟩
  constructor
  · intro hp
    obtain ⟨e, he, hsome⟩ := Report.exists_of_mem_madeAll hp
    obtain ⟨w, hw, hreplacement⟩ := Option.bind_eq_some_iff.mp hsome
    exact ⟨w.tag.place, (h.at?_tag (hmem he hw)).trans hreplacement⟩
  · rintro ⟨place, hp⟩
    obtain ⟨w, hw, rfl, hreplacement⟩ := h.exists_of_at? hp
    rw [← hrewrites] at hw
    obtain ⟨e, he, hsome⟩ := List.mem_filterMap.mp hw
    cases e with
    | finding | note => cases hsome
    | style code tag span spelled args =>
      cases hsome
      -- what is held in its place is about the spelling of the same tag, and was told by a fix
      have hfound : (Report.begin config file (tokenize source)).findingAt .warning true
          code.template tag.place code.id args ∈ (wanted config source).filterMap
            (Report.begin config file (tokenize source)).findingOf? :=
        List.mem_filterMap.mpr ⟨_, he, rfl⟩
      have henabled : config.disabled.contains code.id = false := by
        rw [hdisabled]
        rfl
      obtain ⟨g, hg, hsame⟩ := Report.exists_sameFinding henabled hfound []
      obtain ⟨n, hn⟩ := check_spec config file source
      have hheld : g ∈ (check config file source).findings := by rw [hn]; exact hg
      rw [check_eq] at hheld
      rcases (idle_begin config file source).exists_made (fixable_of_mem_wanted config source)
        hfixes hheld with hnone | ⟨e', he', hg', hmade⟩
      · cases hnone
      · have hlt := place_lt_size h (hmem he rfl)
        cases e' with
        | note => cases hg'
        | finding code' place' args' =>
          cases hg'
          exact absurd (sameFinding_findingAt_iff.mp hsame).1 (ne_of_isPlain
            (fixable_of_mem_wanted config source _ he).1
            (fixable_of_mem_wanted config source _ he').1)
        | style code' tag' span' spelled' args' =>
          cases hg'
          have hlt' := place_lt_size h (hmem he' rfl)
          have hplace : tag.place = tag'.place := by
            have := (sameFinding_findingAt_iff.mp hsame).2.1
            simp only at hlt hlt'
            omega
          have hat := h.at?_tag (hmem he' rfl)
          rw [← hplace, hp] at hat
          exact hmade p hat.symm

/-- The fixes put into every token what the plan gives it. -/
theorem gives_texts (hstyle : config.checksStyle = true) (hfixes : config.fixes = true)
    (hdisabled : config.disabled = []) (h : Steady (tokenize source)) {i : Nat} {t : Token}
    (ht : (tokenize source)[i]? = some t) :
    ∃ s, (check config file source).texts[i]? = some s ∧ h.plan.Gives i t s := by
  have hmade := fun {p} => mem_made_iff file hstyle hfixes hdisabled h (p := p)
  have htext : ((tokenize source).map (·.text))[i]? = some t.text := by simp [ht]
  rw [texts_check, Report.getElem?_applyTo_eq, htext, replaced_eq]
  refine ⟨_, rfl, ?_⟩
  have hle : ∀ p ∈ made config file source, p.first ≤ p.last := fun p hp =>
    have ⟨place, hplan⟩ := hmade.mp hp
    (h.plan.suits place p hplan).le
  rcases Replacement.textOf_all hle i with ⟨htext, hnone⟩ | ⟨p, hp, hin, htext⟩
  · simp only [htext, Option.getD_none]
    exact .kept fun place p hp => hnone p (hmade.mpr ⟨place, hp⟩)
  · obtain ⟨place, hplan⟩ := hmade.mp hp
    simp only [htext, Option.getD_some]
    split
    · exact .written hplan (Eq.symm ‹_›)
    · exact .leftOut hplan (by omega) hin.2

/-- The file that is fixed has the tokens of the file, but for some in the bodies of tags, with the
replacements of the rewrites made. -/
theorem exists_result (file : String) (hstyle : config.checksStyle = true) (hfixes : config.fixes = true)
    (hdisabled : config.disabled = []) (h : Steady (tokenize source))
    (hends : Piece.LiteralsEnd (Piece.cut false source.toList)) :
    ∃ f, h.plan.Result (tokenize (check config file source).source) f := by
  refine h.plan.exists_result ?_ (fun i t ht => gives_texts hstyle hfixes hdisabled h ht) hends
  rw [texts_check, Report.size_applyTo, Array.size_map]

end

end Check

end PhpDoc
