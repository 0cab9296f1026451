import PhpDoc.Proofs.Fixes
/-!
The outcomes of fixes. A fix that is tried on a comment of the file never fails: no changeset stays
open, nothing is found about a fix, and the fixes are counted by the fixable findings.
-/
namespace PhpDoc

theorem Code.id_ne {c d : Code} (h : c ≠ d) : c.id ≠ d.id := by
  intro hid
  have hcode := congrArg Code.ofId? hid
  rw [Code.ofId?_id, Code.ofId?_id] at hcode
  exact h (Option.some.inj hcode)

namespace Report
variable {r : Report} {source : String} {e : Event} {es : List Event}

/-- What the fix of an event comes to, if one is tried: it begins a changeset, writes the type and
ends the changeset, and each of these may fail. -/
def tried (r : Report) : Event → Option (Except (Failure FixError) Report)
  | .style code tag span spelled args =>
    let f := r.findingAt .warning true code.template tag.place code.id args
    if r.admits f && r.fixing then some ((r.tell f).1.fix tag span spelled) else none
  | _ => none

def triedAll (r : Report) : List Event → List (Except (Failure FixError) Report)
  | [] => []
  | e :: es => (r.tried e).toList ++ (r.enter e).1.triedAll es

/-- A fix that is tried gives the next report, and is counted. -/
theorem Idle.enter_tried (hr : r.Idle (tokenize source)) (he : Fixable (tokenize source) e) :
    (∀ outcome ∈ r.tried e, outcome = .ok (r.enter e).1) ∧
      (r.enter e).1.fixes = r.fixes + (r.tried e).toList.length := by
  cases e with
  | note entry forDocs => exact ⟨by simp [tried], rfl⟩
  | finding code place args =>
    refine ⟨by simp [tried], ?_⟩
    change (r.tell _).1.fixes = r.fixes
    rw [tell_eq]
  | style code tag span spelled args =>
    obtain ⟨-, -, htag, c, f, hspelled, hspan⟩ := he
    generalize hfinding : r.findingAt .warning true code.template tag.place code.id args = finding
    have htold := tell_idle hr finding
    have hfixes : (r.tell finding).1.fixes = r.fixes := by rw [tell_eq]
    obtain ⟨changes, -, hfix, -⟩ := htold.fix_eq htag hspelled hspan
    simp only [tried, Report.enter, enterStyle, hfinding]
    split
    · simp [hfix, hfixes]
    · simp [hfixes]

/-- No fix fails that is tried on the way, and all of them are counted. -/
theorem Idle.triedAll_spec (hr : r.Idle (tokenize source))
    (hes : ∀ e ∈ es, Fixable (tokenize source) e) :
    (∀ outcome ∈ r.triedAll es, ∃ fixed, outcome = .ok fixed ∧ fixed.changeset = none) ∧
      (r.enterAll es).1.fixes = r.fixes + (r.triedAll es).length := by
  induction es generalizing r with
  | nil => exact ⟨by simp [triedAll], rfl⟩
  | cons e es ih =>
    obtain ⟨he, hes⟩ := List.forall_mem_cons.mp hes
    obtain ⟨hhead, hcount⟩ := hr.enter_tried he
    obtain ⟨htail, hrest⟩ := ih (hr.enter he) hes
    refine ⟨List.forall_mem_append.mpr ⟨fun outcome hmem => ?_, htail⟩, ?_⟩
    · exact ⟨_, hhead outcome (Option.mem_toList.mp hmem), (hr.enter he).closed⟩
    · rw [enterAll_cons, hrest, hcount, triedAll, List.length_append, Nat.add_assoc]

theorem Idle.enterAll (hr : r.Idle (tokenize source)) (hes : ∀ e ∈ es, Fixable (tokenize source) e) :
    (r.enterAll es).1.Idle (tokenize source) := by
  obtain ⟨⟨n, hn⟩, -⟩ := hr.enterAll_eq hes
  rw [hn]
  exact ⟨hr.tokens, hr.closed⟩

structure Tallies (r : Report) : Prop where
  plain : ∀ f ∈ r.findings, f.code ≠ Code.internalFix.id
  count : r.fixing = true → r.fixes = r.findings.countP (·.fixable)

/-- No event of the checks is about a fix that failed. -/
theorem code_ne_of_proper {Q : Tag → Prop} (he : e.Proper Q) :
    ∀ f ∈ r.findingOf? e, f.code ≠ Code.internalFix.id := by
  cases e with
  | note entry forDocs => simp [findingOf?]
  | finding code place args =>
    have hplain : code ≠ .internalFix := by
      rintro rfl
      exact absurd he.1 (by decide)
    simpa [findingOf?, findingOf, findingAt] using Code.id_ne hplain
  | style code tag span spelled args =>
    have hstyle : code ≠ .internalFix := by
      rintro rfl
      exact absurd he.1 (by decide)
    simpa [findingOf?, findingAt] using Code.id_ne hstyle

theorem mem_hold {disabled : List String} {held : List Finding} {f g : Finding}
    (h : g ∈ hold disabled held f) : g ∈ held ∨ g = f := by
  unfold hold at h
  split at h
  · simpa using h
  · exact Or.inl h

theorem hold_of_not_admits {f : Finding} (h : ¬r.admits f = true) :
    hold r.disabled r.findings f = r.findings :=
  if_neg h

theorem Idle.enter_findings (hr : r.Idle (tokenize source)) (he : Fixable (tokenize source) e) :
    (r.enter e).1.findings = (r.findingOf? e).toList.foldl (hold r.disabled) r.findings ∧
      (r.enter e).1.fixing = r.fixing := by
  obtain ⟨⟨n, hn⟩, -⟩ := hr.enter_eq he
  rw [hn]
  exact ⟨rfl, rfl⟩

/-- Where fixes are wanted, one is tried exactly if one more fixable finding is held. -/
theorem Idle.enter_countP (hr : r.Idle (tokenize source)) (he : Fixable (tokenize source) e)
    (hfixing : r.fixing = true) :
    (r.enter e).1.findings.countP (·.fixable) =
      r.findings.countP (·.fixable) + (r.tried e).toList.length := by
  rw [(hr.enter_findings he).1]
  cases e with
  | note entry forDocs => rfl
  | finding code place args =>
    simp only [findingOf?, tried, hold, Option.toList_some, List.foldl_cons, List.foldl_nil]
    split <;> simp [findingOf, findingAt]
  | style code tag span spelled args =>
    simp only [findingOf?, tried, Option.toList_some, List.foldl_cons, List.foldl_nil, hfixing,
      Bool.and_true]
    split
    · rename_i hadmits
      rw [hold_of_admits hadmits, List.countP_append]
      rfl
    · rename_i hadmits
      rw [hold_of_not_admits hadmits]
      rfl

theorem Idle.enter_tallies (hr : r.Idle (tokenize source)) (he : Fixable (tokenize source) e)
    (ht : r.Tallies) : (r.enter e).1.Tallies := by
  obtain ⟨hfindings, hsame⟩ := hr.enter_findings he
  refine ⟨fun f hf => ?_, fun hfixing => ?_⟩
  · rw [hfindings] at hf
    cases hfound : r.findingOf? e with
    | none => exact ht.plain f (by simpa [hfound] using hf)
    | some g =>
      rw [hfound] at hf
      rcases mem_hold hf with hheld | rfl
      · exact ht.plain f hheld
      · exact code_ne_of_proper he f hfound
  · rw [hsame] at hfixing
    rw [(hr.enter_tried he).2, ht.count hfixing, hr.enter_countP he hfixing]

theorem Idle.enterAll_tallies (hr : r.Idle (tokenize source))
    (hes : ∀ e ∈ es, Fixable (tokenize source) e) (ht : r.Tallies) :
    (r.enterAll es).1.Tallies := by
  induction es generalizing r with
  | nil => exact ht
  | cons e es ih =>
    obtain ⟨he, hes⟩ := List.forall_mem_cons.mp hes
    exact ih (hr.enter he) hes (hr.enter_tallies he ht)

end Report

section
variable (config : Config) (file source : String)

def Check.tried : List (Except (Failure FixError) Report) :=
  (Report.begin config file (tokenize source)).triedAll (Check.wanted config source)

theorem tallies_begin : (Report.begin config file (tokenize source)).Tallies :=
  ⟨by simp [Report.begin], fun _ => rfl⟩

/-- Fixes never fail: each one that is tried is made, with its changeset ended, nothing is found
about a fix, at no time between two events a changeset is open, and where fixes are wanted as many
are made as fixable findings are held. -/
theorem fixes_succeed :
    (∀ outcome ∈ Check.tried config file source,
        ∃ fixed, outcome = .ok fixed ∧ fixed.changeset = none) ∧
      (check config file source).fixes = (Check.tried config file source).length ∧
      (∀ f ∈ (check config file source).findings, f.code ≠ Code.internalFix.id) ∧
      (∀ n, ((Report.begin config file (tokenize source)).enterAll
        ((Check.wanted config source).take n)).1.changeset = none) ∧
      (check config file source).changeset = none ∧
      (config.fixes = true → (check config file source).fixes =
        (check config file source).findings.countP (·.fixable)) := by
  have hbegin := idle_begin config file source
  have hwanted := Check.fixable_of_mem_wanted config source
  obtain ⟨houtcomes, hcount⟩ := hbegin.triedAll_spec hwanted
  have htallies := hbegin.enterAll_tallies hwanted (tallies_begin config file source)
  rw [← check_eq] at hcount htallies
  refine ⟨houtcomes, hcount.trans (Nat.zero_add _), htallies.plain, fun n => ?_, ?_, fun hfixes => ?_⟩
  · exact (hbegin.enterAll fun e he => hwanted e (List.mem_of_mem_take he)).closed
  · rw [check_eq]
    exact (hbegin.enterAll hwanted).closed
  · obtain ⟨n, hn⟩ := check_spec config file source
    exact htallies.count (by rw [hn]; exact hfixes)

end
end PhpDoc
