import PhpDoc.Proofs.Filtering
import PhpDoc.Proofs.PlannedFixes
import PhpDoc.Proofs.RenumberedWalks
import PhpDoc.Proofs.ShownLines
/-!
Fixes settle. In a file that is fixed every tag says what it said, and so the same is found about it,
apart from spelling, about which nothing is left to be found.
-/
namespace PhpDoc

/-- Where nothing is to be rewritten, nothing is told about the spelling in a tag of the same text. -/
theorem TagReading.spelling_eq_nil {r : TagReading} {t' : Tag} (h : r.rewrite? = none)
    (htold : r.isTold = true) (htext : t'.text = r.tag.text) (code : Code) (args : List String) :
    Event.spelling code t' (r.form.read r.context t'.text) args = [] := by
  have htyped : r.form.read r.context t'.text = r.typed := by rw [htext, TagReading.typed]
  rw [htyped, Event.spelling]
  unfold TagReading.rewrite? at h
  split
  · rename_i spelled span hspelled hspan
    simp only [hspelled, hspan, htold, Bool.true_and] at h
    split at h
    · cases h
    · rename_i hsame
      rw [htext, Event.when, if_neg hsame]
  · rfl

namespace Check
variable {config : Config} {file source source' : String} {f : Nat → Nat}

/-- In the fixed file a tag says what it said, and nothing about its spelling is left to be told. -/
theorem Steady.keeps (h : Steady (tokenize source)) {r : TagReading}
    (hr : r ∈ readings (tokenize source)) {t' : Tag} (ht : h.plan.TagBecomes f r.tag t') :
    r.Keeps t' := by
  have hat := h.at?_plan hr
  cases hsome : r.rewrite? with
  | some w =>
    obtain ⟨htag, hspelled, hspan⟩ := TagReading.of_rewrite? hsome
    rw [hsome] at hat
    have hmem : w ∈ rewrites (tokenize source) := List.mem_filterMap.mpr ⟨r, hr, hsome⟩
    have htext : t'.text = TypedTag.restyle r.tag.text r.typed := by
      rw [← String.toList_inj, TypedTag.toList_restyle hspelled hspan]
      exact ht.written w htag (h.isOf hmem) hat
    have hkeeps := (TypedTag.Form.keeps_iff r.context r.tag.text r.form).mpr
      (h.whole r hr (by simp [hsome]))
    refine ⟨?_, fun _ code args => hkeeps.done code t' args htext⟩
    rw [htext]
    exact hkeeps.same
  | none =>
    rw [hsome] at hat
    have htext := ht.spared hat
    refine ⟨?_, fun htold code args => r.spelling_eq_nil hsome htold htext code args⟩
    rw [htext]
    rfl

/-- The last token of a file is not replaced: a comment that has tags has an end. -/
theorem Steady.keeps_last (h : Steady (tokenize source))
    (hres : h.plan.Result (tokenize source') f) : KeepsPlace f ((tokenize source).size - 1) ∧
      f ((tokenize source).size - 1) = (tokenize source').size - 1 := by
  have hsize := hres.renumbers.size
  rcases Nat.eq_zero_or_pos (tokenize source).size with hzero | hpos
  · have hsucc := hres.renumbers.succ_of_size_le (i := 0) (by omega)
    have hfirst := hres.renumbers.zero
    rw [hzero] at hsize ⊢
    exact ⟨hsucc, hfirst.trans (by omega)⟩
  · have hspares : h.plan.Spares ((tokenize source).size - 1) := by
      rintro place p hp ⟨-, hle⟩
      obtain ⟨w, hw, rfl, -⟩ := h.exists_of_at? hp
      obtain ⟨u, stop, -, -, hstop, -⟩ := (h.isOf hw).tag.spec
      obtain ⟨hfrom, hclose, -⟩ := Tokens.commentEnd_spec hstop
      have hlt := Tokens.lt_size_of_kind? hclose
      obtain ⟨k, hk, hbody⟩ := (h.plan.suits _ p hp).body stop hfrom (by omega)
      rw [hclose] at hk
      cases hk
      cases hbody
    have hlast : (tokenize source)[(tokenize source).size - 1]? =
        some (tokenize source)[(tokenize source).size - 1] := Array.getElem?_eq_getElem (by omega)
    have hkeeps := (hres.kept _ _ hlast hspares).1
    refine ⟨hkeeps, ?_⟩
    rw [Nat.sub_add_cancel hpos, hsize] at hkeeps
    omega

/-- What is found in the fixed file. -/
theorem Steady.events_settle (h : Steady (tokenize source))
    (hres : h.plan.Result (tokenize source') f) :
    Event.Settle f (events (tokenize source)) (events (tokenize source')) := by
  have hmarked := tokenize_marked source'
  have hmoves : ∀ t t', h.plan.TagBecomes f t t' → t.Moves f t' :=
    fun t t' ht => ⟨ht.name, ht.place, ht.keeps⟩
  have hhierarchy : hierarchy (tokenize source') = hierarchy (tokenize source) :=
    Outline.Renumbering.hierarchy_eq hres.renumbering hmarked
  have hreadings : ∀ v ∈ Outline.visits (bindTemplates (hierarchy (tokenize source)))
      (tokenize source), ∀ r ∈ visitReadings (hierarchy (tokenize source)) v, ∀ t',
        h.plan.TagBecomes f r.tag t' → r.Keeps t' :=
    fun v hv r hr t' ht => h.keeps (List.mem_flatMap.mpr ⟨v, hv, hr⟩) ht
  have hagrees : ∀ v ∈ Outline.visits (bindTemplates (hierarchy (tokenize source)))
      (tokenize source), hres.renumbering.Agrees (bindTemplates (hierarchy (tokenize source)))
        (bindTemplates (hierarchy (tokenize source))) (.visit v) := by
    intro v hv
    cases v with
    | templates s c => exact fun c' hc => bindTemplates_renumber hmoves hc (hreadings _ hv)
    | _ => exact trivial
  have hvisits := hres.renumbering.visits_becomes hmarked hagrees
  unfold events
  simp only [hhierarchy]
  exact .flatMap hvisits fun v hv v' hv' =>
    visitWithLog_settles hres.renumbers hmoves hv' (h.keeps_last hres) (hreadings v hv)

end Check

theorem Tokens.Renumbers.eq_iff {ts ts' : Tokens} {f : Nat → Nat} (h : ts.Renumbers ts' f) {i j : Nat}
    (hi : KeepsPlace f i) (hj : KeepsPlace f j) : f i = f j ↔ i = j := by
  rw [Nat.eq_iff_le_and_ge, h.le_iff hj, h.le_iff hi, ← Nat.eq_iff_le_and_ge]

namespace Report

/-- Findings that correspond are held alike if one says the same as another one exactly if those that
correspond do. -/
theorem foldl_hold_related {R : Finding → Finding → Prop} (hcode : ∀ a b, R a b → b.code = a.code)
    (hsame : ∀ a b c d, R a b → R c d → sameFinding b d = sameFinding a c) (disabled : List String)
    {fs fs' held held' : List Finding} (hfs : List.Forall₂ R fs fs')
    (hheld : List.Forall₂ R held held') :
    List.Forall₂ R (fs.foldl (hold disabled) held) (fs'.foldl (hold disabled) held') := by
  induction hfs generalizing held held' with
  | nil => exact hheld
  | @cons a b fs fs' hab _ ih =>
    refine ih ?_
    have hany : held'.any (sameFinding b) = held.any (sameFinding a) := by
      induction hheld with
      | nil => rfl
      | cons hcd _ ih => rw [List.any_cons, List.any_cons, hsame _ _ _ _ hab hcd, ih]
    unfold hold
    rw [hcode a b hab, hany]
    split
    · exact List.rel_append hheld (.cons hab .nil)
    · exact hheld

end Report

namespace Check

def told (config : Config) (ts : Tokens) : List (Code × Nat × List String) :=
  ((events ts).filterMap Event.plain?).filter fun x => config.checksDocs || !x.1.asksForDocs

def findingAt (config : Config) (file source : String) (x : Code × Nat × List String) : Finding :=
  (Report.begin config file (tokenize source)).findingOf x.1 x.2.1 x.2.2

section
variable (config : Config) (file source : String)

theorem filterMap_findingOf? : (wanted { config with checksStyle := false } source).filterMap
    (Report.begin config file (tokenize source)).findingOf? =
      (told config (tokenize source)).map (findingAt config file source) := by
  rw [wanted, told, List.filterMap_filter, List.filter_filterMap, List.map_filterMap]
  refine List.filterMap_congr fun e _ => ?_
  cases e with
  | finding code place args =>
    cases hwanted : config.checksDocs || !code.asksForDocs with
    | false => simp [Event.wanted, Event.plain?, Option.filter, hwanted]
    | true =>
      simp only [Event.wanted, Event.plain?, Option.filter, hwanted, if_true]
      rfl
  | style | note => simp [Event.wanted, Event.plain?, Report.findingOf?]

/-- What is found apart from spelling: the plain findings, each once. -/
theorem filter_findings : (check config file source).findings.filter (fun f => !f.isStyle) =
    ((told config (tokenize source)).map (findingAt config file source)).foldl
      (Report.hold config.disabled) [] := by
  have hfilter (c : Config) : (check c file source).findings =
      ((found file source).foldl (Report.hold []) []).filter c.keeps := by
    rw [findings_check, ← c.foldl_hold_filter]
    rfl
  have hplain := findings_check { config with checksStyle := false } file source
  rw [← filterMap_wanted, ← findingOf?_begin config, filterMap_findingOf?] at hplain
  rw [← hplain, hfilter, hfilter, List.filter_filter]
  refine List.filter_congr fun f _ => ?_
  simp only [Config.keeps, Config.asks, Bool.false_or]
  cases f.isStyle <;> simp

/-- What can be fixed is what is about spelling. -/
theorem fixable_eq {f : Finding} (hf : f ∈ (check config file source).findings) :
    f.fixable = f.isStyle ∧ ∃ e ∈ events (tokenize source), e.isStyle = f.fixable := by
  obtain ⟨n, hn⟩ := check_spec config file source
  rw [hn] at hf
  obtain hf | hf := Report.mem_of_mem_foldl_hold hf
  · cases hf
  · obtain ⟨e, he, hfinding⟩ := List.mem_filterMap.mp hf
    have hproper := fixable_of_mem_wanted config source e he
    refine ⟨?_, e, (List.mem_filter.mp he).1, ?_⟩
    · cases e with
      | finding code place args =>
        cases hfinding
        rw [Finding.isStyle_eq _ code rfl]
        have hplain := (Bool.and_eq_true_iff.mp hproper.1).1
        simpa [Report.findingOf, Report.findingAt] using hplain
      | style code tag span spelled args =>
        cases hfinding
        rw [Finding.isStyle_eq _ code rfl]
        exact hproper.1.symm
      | note => cases hfinding
    · cases e with
      | note => cases hfinding
      | finding | style =>
        cases hfinding
        rfl

theorem others_check : (check config file source).others =
    (((told config (tokenize source)).map (findingAt config file source)).foldl
      (Report.hold config.disabled) []).map fun f => (f.code, f.message) := by
  have hstyle : ∀ f ∈ (check config file source).findings, (!f.fixable) = !f.isStyle :=
    fun f hf => by rw [(fixable_eq config file source hf).1]
  rw [← filter_findings, Report.others, List.filter_congr hstyle]

end

/-- Places past the end of the file count as its last token in the other file as well. -/
theorem min_number_eq (hts : (tokenize source).Renumbers (tokenize source') f)
    (hlast : KeepsPlace f ((tokenize source).size - 1) ∧
      f ((tokenize source).size - 1) = (tokenize source').size - 1) {i : Nat} (hi : KeepsPlace f i) :
    KeepsPlace f (min i ((tokenize source).size - 1)) ∧
      min (f i) ((tokenize source').size - 1) = f (min i ((tokenize source).size - 1)) := by
  rcases Nat.lt_or_ge i (tokenize source).size with hlt | hge
  · have hlt' := (hts.lt_size_iff hi).mpr hlt
    rw [Nat.min_eq_left (by omega), Nat.min_eq_left (by omega)]
    exact ⟨hi, rfl⟩
  · have hge' := hts.size_le hge
    rw [Nat.min_eq_right (by omega), Nat.min_eq_right (by omega)]
    exact ⟨hlast.1, hlast.2.symm⟩

/-- In the fixed file the same is found apart from spelling. -/
theorem others_eq (hts : (tokenize source).Renumbers (tokenize source') f)
    (hlast : KeepsPlace f ((tokenize source).size - 1) ∧
      f ((tokenize source).size - 1) = (tokenize source').size - 1)
    (hsettle : Event.Settle f (events (tokenize source)) (events (tokenize source'))) :
    (check config file source').others = (check config file source).others := by
  have htold : told config (tokenize source') =
      (told config (tokenize source)).map fun x => (x.1, f x.2.1, x.2.2) := by
    rw [told, told, hsettle.plain, List.filter_map]
    rfl
  -- findings correspond that are about tokens that do
  let related : Finding → Finding → Prop := fun a b => ∃ x : Code × Nat × List String,
    KeepsPlace f x.2.1 ∧ a = findingAt config file source x ∧
      b = findingAt config file source' (x.1, f x.2.1, x.2.2)
  have hrelated : List.Forall₂ related
      ((told config (tokenize source)).map (findingAt config file source))
      ((told config (tokenize source')).map (findingAt config file source')) := by
    rw [htold, List.map_map, List.forall₂_map_left_iff, List.forall₂_map_right_iff,
      List.forall₂_same]
    exact fun x hx => ⟨x, hsettle.keeps x (List.mem_filter.mp hx).1, rfl, rfl⟩
  have hheld := Report.foldl_hold_related (R := related) ?_ ?_ config.disabled hrelated
    (List.Forall₂.nil : List.Forall₂ related [] [])
  · rw [others_check, others_check]
    generalize ((told config (tokenize source)).map (findingAt config file source)).foldl
      (Report.hold config.disabled) [] = fs at hheld ⊢
    generalize ((told config (tokenize source')).map (findingAt config file source')).foldl
      (Report.hold config.disabled) [] = fs' at hheld ⊢
    induction hheld with
    | nil => rfl
    | cons hab _ ih =>
      obtain ⟨x, -, rfl, rfl⟩ := hab
      rw [List.map_cons, List.map_cons, ih]
      rfl
  · rintro a b ⟨x, -, rfl, rfl⟩
    rfl
  · rintro a b c d ⟨x, hx, rfl, rfl⟩ ⟨y, hy, rfl, rfl⟩
    obtain ⟨hxkeeps, hxplace⟩ := min_number_eq hts hlast hx
    obtain ⟨hykeeps, hyplace⟩ := min_number_eq hts hlast hy
    rw [Bool.eq_iff_iff, findingAt, findingAt, findingAt, findingAt, Report.findingOf,
      Report.findingOf, Report.findingOf, Report.findingOf, sameFinding_findingAt_iff,
      sameFinding_findingAt_iff, hxplace, hyplace, hts.eq_iff hxkeeps hykeeps]

end Check

/-- Fixes settle. -/
theorem fixes_settle (config : Config) (file source : String) (hstyle : config.checksStyle = true)
    (hfixes : config.fixes = true) (hdisabled : config.disabled = [])
    (hsteady : Check.Steady (tokenize source))
    (hends : Piece.LiteralsEnd (Piece.cut false source.toList)) :
    (∀ f ∈ (check config file (check config file source).source).findings, f.fixable = false) ∧
      (check config file (check config file source).source).others =
        (check config file source).others ∧
      (check config file (check config file source).source).source =
        (check config file source).source := by
  obtain ⟨f, hres⟩ := Check.exists_result file hstyle hfixes hdisabled hsteady hends
  have hsettle := hsteady.events_settle hres
  have hplain : ∀ f ∈ (check config file (check config file source).source).findings,
      f.fixable = false := by
    intro f hf
    obtain ⟨-, e, he, hfixable⟩ := Check.fixable_eq _ _ _ hf
    rw [← hfixable]
    exact hsettle.styles e he
  refine ⟨hplain, Check.others_eq hres.renumbers (hsteady.keeps_last hres) hsettle,
    source_check _ _ _ (.inr fun f hf => ?_)⟩
  rw [← (Check.fixable_eq _ _ _ hf).1]
  exact hplain f hf

def misspelled : String :=
  "<?php\n/** @return array<integer,\n * boolean> */\nfunction f(): int \x7b\x7d\n"

theorem fixes_settle_misspelled :
    Check.Steady (tokenize misspelled) ∧
      Piece.LiteralsEnd (Piece.cut false misspelled.toList) ∧
      (check { fixes := true } "a.php" misspelled).others ≠ [] ∧
      (∀ f ∈ (check { fixes := true } "a.php"
        (check { fixes := true } "a.php" misspelled).source).findings, f.fixable = false) ∧
      (check { fixes := true } "a.php" (check { fixes := true } "a.php" misspelled).source).others =
        (check { fixes := true } "a.php" misspelled).others := by
  have hsteady : Check.Steady (tokenize misspelled) := by decide +kernel
  have hends : Piece.LiteralsEnd (Piece.cut false misspelled.toList) := by decide +kernel
  obtain ⟨hplain, hothers, -⟩ :=
    fixes_settle { fixes := true } "a.php" misspelled rfl rfl rfl hsteady hends
  exact ⟨hsteady, hends, by decide +kernel, hplain, hothers⟩

example : (check { fixes := true } "a.php" misspelled).source =
    "<?php\n/** @return array<int, bool> */\nfunction f(): int \x7b\x7d\n" := by
  decide +kernel

end PhpDoc
