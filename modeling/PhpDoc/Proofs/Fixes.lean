import PhpDoc.Proofs.AskedChecks
import PhpDoc.Proofs.Events
import PhpDoc.Proofs.Writing
/-!
Fixes leave the code alone. Every fix that is wanted is made; all that fixes write goes into the
bodies of tags, and none of it ends a comment.
-/
namespace PhpDoc

def Finding.isStyle (f : Finding) : Bool :=
  "_style".toList.isSuffixOf f.code.toList

theorem Code.isStyle_eq (c : Code) : c.isStyle = "_style".toList.isSuffixOf c.id.toList := by
  cases c <;> decide

namespace Report
variable {r : Report} {source : String}

def hold (disabled : List String) (held : List Finding) (f : Finding) : List Finding :=
  if !disabled.contains f.code && !held.any (sameFinding f) then held ++ [f] else held

theorem hold_of_admits {f : Finding} (h : r.admits f = true) :
    hold r.disabled r.findings f = r.findings ++ [f] :=
  if_pos h

theorem tell_eq (r : Report) (f : Finding) :
    (r.tell f).1 = { r with findings := hold r.disabled r.findings f } := by
  by_cases h : r.admits f = true
  · rw [tell, add, if_pos h, hold_of_admits h]
  · have hold : hold r.disabled r.findings f = r.findings := if_neg h
    rw [tell, add, if_neg h, hold]

def findingOf? (r : Report) : Event → Option Finding
  | .finding code place args => some (r.findingOf code place args)
  | .style code tag _ _ args =>
    some (r.findingAt .warning true code.template tag.place code.id args)
  | .note _ _ => none

/-- The replacements that are made when an event is entered: those of its fix, if one is made. -/
def replaced (r : Report) : Event → Changeset
  | .style code tag span spelled args =>
    let f := r.findingAt .warning true code.template tag.place code.id args
    if r.admits f && r.fixing then
      match (r.tell f).1.beginChanges.bind (·.writeType tag span spelled) with
      | .ok written => written.changeset.getD []
      | .error _ => []
    else []
  | _ => []

def replacedAll (r : Report) : List Event → Changeset
  | [] => []
  | e :: es => r.replaced e ++ (r.enter e).1.replacedAll es

abbrev Fixable (ts : Tokens) (e : Event) : Prop :=
  e.Proper fun t => t.StandsIn ts ∧ t.LaidOut ts

/-- A report between two events. -/
structure Idle (ts : Tokens) (r : Report) : Prop where
  tokens : r.tokens = ts
  closed : r.changeset = none

theorem tell_idle {ts : Tokens} (h : r.Idle ts) (f : Finding) : (r.tell f).1.Idle ts := by
  rw [tell_eq]
  exact ⟨h.tokens, h.closed⟩

/-- A fix that is wanted is made. -/
theorem Idle.fix_eq (hr : r.Idle (tokenize source)) {tag : Tag}
    (htag : tag.StandsIn (tokenize source) ∧ tag.LaidOut (tokenize source)) {c : Context}
    {f : TypedTag.Form} {spelled : String} {span : Nat × Nat}
    (hspelled : (f.read c tag.text).spelled = some spelled)
    (hspan : (f.read c tag.text).span = some span) : ∃ changes,
      r.beginChanges.bind (·.writeType tag span spelled) =
        .ok { r with changeset := some changes } ∧
      r.fix tag span spelled =
        .ok { r with texts := applyTo r.texts changes, fixes := r.fixes + 1 } ∧
      ∀ change ∈ changes, IsHarmless (tokenize source) change := by
  have hbegin : r.beginChanges = .ok { r with changeset := some [] } := by
    rw [beginChanges, hr.closed]
  obtain ⟨changes, hwrite, hharmless⟩ :=
    writeType_eq (r := { r with changeset := some [] }) hr.tokens rfl htag.1 htag.2
      hspelled hspan
  refine ⟨changes, ?_, ?_, hharmless⟩
  · rw [hbegin]
    exact hwrite
  · rw [fix, hbegin]
    simp only [bind, Except.bind, hwrite, commit, hr.closed]

/-- What entering an event does to a report. -/
theorem Idle.enter_eq (hr : r.Idle (tokenize source)) {e : Event} (he : Fixable (tokenize source) e) :
    (∃ n, (r.enter e).1 = { r with
      findings := (r.findingOf? e).toList.foldl (hold r.disabled) r.findings
      texts := applyTo r.texts (r.replaced e)
      fixes := n }) ∧
    ∀ change ∈ r.replaced e, IsHarmless (tokenize source) change := by
  cases e with
  | finding code place args => exact ⟨⟨r.fixes, tell_eq r _⟩, by simp [replaced]⟩
  | note entry forDocs => exact ⟨⟨r.fixes, rfl⟩, by simp [replaced]⟩
  | style code tag span spelled args =>
    obtain ⟨-, -, htag, c, f, hspelled, hspan⟩ := he
    generalize hfinding : r.findingAt .warning true code.template tag.place code.id args = finding
    have htold := tell_idle hr finding
    obtain ⟨changes, hwrite, hfix, hharmless⟩ := htold.fix_eq htag hspelled hspan
    simp only [enter, enterStyle, replaced, findingOf?, hfinding]
    split
    · simp only [hfix, hwrite, Option.getD_some]
      rw [tell_eq]
      exact ⟨⟨r.fixes + 1, rfl⟩, hharmless⟩
    · rw [tell_eq]
      exact ⟨⟨r.fixes, rfl⟩, by simp⟩

theorem Idle.enter (hr : r.Idle (tokenize source)) {e : Event} (he : Fixable (tokenize source) e) :
    (r.enter e).1.Idle (tokenize source) := by
  obtain ⟨⟨n, hn⟩, -⟩ := hr.enter_eq he
  rw [hn]
  exact ⟨hr.tokens, hr.closed⟩

theorem enterAll_cons (e : Event) (es : List Event) :
    (r.enterAll (e :: es)).1 = ((r.enter e).1.enterAll es).1 :=
  rfl

/-- What entering events does to a report. -/
theorem Idle.enterAll_eq {es : List Event} (hr : r.Idle (tokenize source))
    (hes : ∀ e ∈ es, Fixable (tokenize source) e) :
    (∃ n, (r.enterAll es).1 = { r with
      findings := (es.filterMap r.findingOf?).foldl (hold r.disabled) r.findings
      texts := applyTo r.texts (r.replacedAll es)
      fixes := n }) ∧
    ∀ change ∈ r.replacedAll es, IsHarmless (tokenize source) change := by
  induction es generalizing r with
  | nil => exact ⟨⟨r.fixes, rfl⟩, by simp [replacedAll]⟩
  | cons e es ih =>
    obtain ⟨he, hes⟩ := List.forall_mem_cons.mp hes
    obtain ⟨⟨n, hn⟩, hhead⟩ := hr.enter_eq he
    obtain ⟨⟨m, hm⟩, htail⟩ := ih (hr.enter he) hes
    refine ⟨⟨m, ?_⟩, List.forall_mem_append.mpr ⟨hhead, htail⟩⟩
    have hfindings : (e :: es).filterMap r.findingOf? =
        (r.findingOf? e).toList ++ es.filterMap r.findingOf? := by
      rw [List.filterMap_cons]
      cases r.findingOf? e <;> rfl
    have hchanges : applyTo (applyTo r.texts (r.replaced e)) ((r.enter e).1.replacedAll es) =
        applyTo r.texts (r.replacedAll (e :: es)) :=
      List.foldl_append.symm
    rw [enterAll_cons, hm, hfindings, List.foldl_append, ← hchanges]
    simp only [hn]
    rfl

theorem subset_foldl_hold (disabled : List String) (held fs : List Finding) :
    held ⊆ fs.foldl (hold disabled) held := by
  induction fs generalizing held with
  | nil => exact List.Subset.refl held
  | cons f fs ih =>
    refine List.Subset.trans ?_ (ih (hold disabled held f))
    unfold hold
    split
    · exact List.subset_append_left _ _
    · exact List.Subset.refl held

theorem isStyle_of_proper {Q : Tag → Prop} {code : Code} {tag : Tag} {span : Nat × Nat}
    {spelled : String} {args : List String}
    (he : (Event.style code tag span spelled args).Proper Q) :
    (r.findingAt .warning true code.template tag.place code.id args).isStyle = true :=
  (Code.isStyle_eq code).symm.trans he.1

/-- If no fixes are wanted or nothing is found about style, nothing is replaced. -/
theorem Idle.replacedAll_eq_nil {es : List Event} (hr : r.Idle (tokenize source))
    (hes : ∀ e ∈ es, Fixable (tokenize source) e)
    (hnone : r.fixing = false ∨ ∀ f ∈ (r.enterAll es).1.findings, f.isStyle = false) :
    r.replacedAll es = [] := by
  induction es generalizing r with
  | nil => rfl
  | cons e es ih =>
    obtain ⟨he, hes⟩ := List.forall_mem_cons.mp hes
    obtain ⟨⟨n, hn⟩, -⟩ := hr.enter_eq he
    obtain ⟨⟨m, hm⟩, -⟩ := (hr.enter he).enterAll_eq hes
    rw [enterAll_cons] at hnone
    have hrest : (r.enter e).1.replacedAll es = [] := by
      refine ih (hr.enter he) hes (hnone.imp_left fun hfixing => ?_)
      rw [hn]
      exact hfixing
    rw [replacedAll, hrest, List.append_nil]
    cases e with
    | finding | note => rfl
    | style code tag span spelled args =>
      simp only [replaced]
      split
      · rename_i hwanted
        obtain ⟨hadmits, hfixing⟩ := Bool.and_eq_true_iff.mp hwanted
        rcases hnone with hno | hno
        · rw [hno] at hfixing
          cases hfixing
        · -- the spelling is held, and still is after the other events
          refine absurd (hno (r.findingAt .warning true code.template tag.place code.id args) ?_)
            (by simp [isStyle_of_proper he])
          rw [hm]
          refine subset_foldl_hold _ _ _ ?_
          rw [hn]
          simp only [findingOf?, Option.toList_some, List.foldl_cons, List.foldl_nil,
            hold_of_admits hadmits]
          exact List.mem_append_right _ (List.mem_singleton.mpr rfl)
      · rfl

/-- What is not replaced keeps its text. -/
theorem getElem?_applyTo {texts : Array String} {changes : Changeset} {i : Nat}
    (h : ∀ change ∈ changes, change.1 ≠ i) : (applyTo texts changes)[i]? = texts[i]? := by
  induction changes generalizing texts with
  | nil => rfl
  | cons change changes ih =>
    obtain ⟨hne, hrest⟩ := List.forall_mem_cons.mp h
    have happly : applyTo texts (change :: changes) =
        applyTo (texts.setIfInBounds change.1 change.2) changes := rfl
    rw [happly, ih hrest, Array.getElem?_setIfInBounds_ne hne]

end Report

namespace Check

def wanted (config : Config) (source : String) : List Event :=
  (events (tokenize source)).filter config.wants

def replaced (config : Config) (file source : String) : Changeset :=
  (Report.begin config file (tokenize source)).replacedAll (wanted config source)

theorem fixable_of_mem_wanted (config : Config) (source : String) :
    ∀ e ∈ wanted config source, Report.Fixable (tokenize source) e :=
  fun e he => proper_events source e (List.mem_filter.mp he).1

end Check

section
variable (config : Config) (file source : String)

theorem check_eq : check config file source =
    ((Report.begin config file (tokenize source)).enterAll (Check.wanted config source)).1 := by
  unfold check Check.run Check.wanted
  rw [Check.asked_eq]
  rfl

theorem idle_begin : (Report.begin config file (tokenize source)).Idle (tokenize source) :=
  ⟨rfl, rfl⟩

/-- The report of a check: what is told about the file, each finding once, and the texts after the
replacements. -/
theorem check_spec : ∃ n, check config file source =
    { Report.begin config file (tokenize source) with
      findings := ((Check.wanted config source).filterMap
        (Report.begin config file (tokenize source)).findingOf?).foldl
          (Report.hold config.disabled) []
      texts := Report.applyTo ((tokenize source).map (·.text)) (Check.replaced config file source)
      fixes := n } := by
  rw [check_eq]
  exact ((idle_begin config file source).enterAll_eq
    (Check.fixable_of_mem_wanted config source)).1

theorem isHarmless_of_mem_replaced : ∀ change ∈ Check.replaced config file source,
    Report.IsHarmless (tokenize source) change :=
  ((idle_begin config file source).enterAll_eq (Check.fixable_of_mem_wanted config source)).2

theorem texts_check : (check config file source).texts =
    Report.applyTo ((tokenize source).map (·.text)) (Check.replaced config file source) := by
  obtain ⟨n, hn⟩ := check_spec config file source
  rw [hn]

/-- What is not the body of a tag keeps its text. -/
theorem getElem?_texts_check {i : Nat} {t : Token} (ht : (tokenize source)[i]? = some t)
    (hk : t.kind.isBody = false) : (check config file source).texts[i]? = some t.text := by
  rw [texts_check, Report.getElem?_applyTo]
  · simp [ht]
  · rintro change hmem rfl
    obtain ⟨k, hkind, hbody⟩ := (isHarmless_of_mem_replaced config file source change hmem).body
    obtain rfl : t.kind = k := by simpa [Tokens.kind?, ht] using hkind
    rw [hk] at hbody
    cases hbody

theorem source_check (h : config.fixes = false ∨
    ∀ f ∈ (check config file source).findings, f.isStyle = false) :
    (check config file source).source = source := by
  rw [check_eq] at h
  have hnil : Check.replaced config file source = [] :=
    (idle_begin config file source).replacedAll_eq_nil
      (Check.fixable_of_mem_wanted config source) h
  have hsource := source_tokenize source
  rw [Tokens.source] at hsource
  rw [Report.source, texts_check, hnil, Report.applyTo, List.foldl_nil, Array.toList_map]
  exact hsource

/-- The fixes of a check change no text but that in the bodies of tags, and write no end of a
comment; without fixes, or if nothing is found about style, the source stays as it is. -/
theorem fixes_spare_code :
    (check config file source).tokens = tokenize source ∧
      (check config file source).texts =
        Report.applyTo ((tokenize source).map (·.text)) (Check.replaced config file source) ∧
      (∀ change ∈ Check.replaced config file source, Text.IsOpen change.2.toList) ∧
      (∀ (i : Nat) (t : Token), (tokenize source)[i]? = some t →
        t.kind.isDoc = false ∨ t.kind ∈ [.docOpen, .docClose, .docTag] →
          (check config file source).texts[i]? = some t.text) ∧
      (config.fixes = false ∨ (∀ f ∈ (check config file source).findings, f.isStyle = false) →
        (check config file source).source = source) := by
  refine ⟨?_, texts_check config file source, fun change hmem => ?_, fun i t ht hk => ?_,
    source_check config file source⟩
  · obtain ⟨n, hn⟩ := check_spec config file source
    rw [hn]
    rfl
  · exact (isHarmless_of_mem_replaced config file source change hmem).isOpen
  · refine getElem?_texts_check config file source ht ?_
    revert hk
    cases t.kind <;> decide

end

example :
    (check { fixes := true } "a.php" "<?php\n/** @return integer */\nfunction f(): int {}").source =
      "<?php\n/** @return int */\nfunction f(): int {}" := by
  decide +kernel

end PhpDoc
