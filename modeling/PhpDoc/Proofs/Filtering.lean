import PhpDoc.Proofs.Fixes
/-!
A configuration decides which findings are told and nothing else about them: those of the checks
that are off and those with disabled codes are left out of the list of everything there is to find.
-/
namespace PhpDoc

def Finding.asksForDocs (f : Finding) : Bool :=
  ["phpdoc_fun_doc_missing", "phpdoc_fun_param_missing", "phpdoc_fun_ret_missing",
    "phpdoc_var_doc_missing", "phpdoc_var_missing"].contains f.code

section
variable (f : Finding) (c : Code)

theorem Finding.isStyle_eq (hf : f.code = c.id) : f.isStyle = c.isStyle := by
  rw [Finding.isStyle, hf, Code.isStyle_eq]

theorem Finding.asksForDocs_eq (hf : f.code = c.id) : f.asksForDocs = c.asksForDocs := by
  rw [Finding.asksForDocs, hf]
  cases c <;> decide

end

theorem Code.asksForDocs_of_isStyle {c : Code} (h : c.isStyle = true) : c.asksForDocs = false := by
  cases c <;> first | rfl | cases h

namespace Config

def everything (c : Config) : Config :=
  { c with checksStyle := true, checksDocs := true, fixes := false, disabled := [] }

def asks (c : Config) (f : Finding) : Bool :=
  (c.checksStyle || !f.isStyle) && (c.checksDocs || !f.asksForDocs)

def keeps (c : Config) (f : Finding) : Bool :=
  !c.disabled.contains f.code && c.asks f

variable (c : Config)

theorem keeps_congr {f g : Finding} (h : f.code = g.code) : c.keeps f = c.keeps g := by
  simp only [keeps, asks, Finding.isStyle, Finding.asksForDocs, h]

theorem code_eq_of_sameFinding {f g : Finding} (h : Report.sameFinding f g = true) :
    f.code = g.code := by
  simp only [Report.sameFinding, Bool.and_eq_true, beq_iff_eq] at h
  exact h.1.1.1

/-- What is left out says nothing that something kept says as well. -/
theorem any_sameFinding_filter {f : Finding} (hf : c.keeps f = true) (held : List Finding) :
    (held.filter c.keeps).any (Report.sameFinding f) = held.any (Report.sameFinding f) := by
  rw [List.any_filter]
  congr 1
  funext g
  by_cases h : Report.sameFinding f g = true
  · rw [h, Bool.and_true, ← c.keeps_congr (code_eq_of_sameFinding h), hf]
  · rw [Bool.eq_false_iff.mpr h, Bool.and_false]

/-- A finding that is kept is held again only if it is held among everything. -/
theorem filter_hold (held : List Finding) (f : Finding) :
    (Report.hold [] held f).filter c.keeps =
      if c.asks f then Report.hold c.disabled (held.filter c.keeps) f else held.filter c.keeps := by
  by_cases hkeeps : c.keeps f = true
  · obtain ⟨henabled, hasks⟩ := Bool.and_eq_true_iff.mp hkeeps
    rw [if_pos hasks, Report.hold, Report.hold, c.any_sameFinding_filter hkeeps, henabled]
    by_cases h : held.any (Report.sameFinding f) = true
    · simp [h]
    · simp [h, hkeeps]
  · have hleft : (Report.hold [] held f).filter c.keeps = held.filter c.keeps := by
      rw [Report.hold]
      split
      · simp [hkeeps]
      · rfl
    rw [hleft]
    by_cases hasks : c.asks f = true
    · have hdisabled : c.disabled.contains f.code = true := by
        simpa [keeps, hasks] using hkeeps
      rw [if_pos hasks, Report.hold, hdisabled]
      rfl
    · rw [if_neg hasks]

/-- Holding what comes from the checks that are made is keeping what is held of everything. -/
theorem foldl_hold_filter (held fs : List Finding) :
    (fs.filter c.asks).foldl (Report.hold c.disabled) (held.filter c.keeps) =
      (fs.foldl (Report.hold []) held).filter c.keeps := by
  induction fs generalizing held with
  | nil => rfl
  | cons f fs ih =>
    rw [List.foldl_cons, ← ih, filter_hold]
    by_cases hasks : c.asks f = true
    · rw [List.filter_cons_of_pos hasks, List.foldl_cons, if_pos hasks]
    · rw [List.filter_cons_of_neg hasks, if_neg hasks]

/-- An event that is a finding is wanted if the finding comes from a check that is made. -/
theorem wanted_eq_asks {Q : Tag → Prop} {e : Event} (he : e.Proper Q) {r : Report} {f : Finding}
    (hf : r.findingOf? e = some f) : c.wants e = c.asks f := by
  cases e with
  | finding code place args =>
    obtain rfl := Option.some.inj hf
    have hplain : code.isStyle = false := by
      have h := (Bool.and_eq_true_iff.mp he.1).1
      simpa using h
    rw [asks, Finding.isStyle_eq _ code rfl, Finding.asksForDocs_eq _ code rfl, hplain]
    simp [Event.wanted]
  | style code tag span spelled args =>
    obtain rfl := Option.some.inj hf
    rw [asks, Finding.isStyle_eq _ code rfl, Finding.asksForDocs_eq _ code rfl, he.1,
      Code.asksForDocs_of_isStyle he.1]
    simp [Event.wanted]
  | note entry forDocs => cases hf

end Config

def Check.found (file source : String) : List Finding :=
  (events (tokenize source)).filterMap
    (Report.findingOf? { file, tokens := tokenize source })

section
variable (config : Config) (file source : String)

theorem findingOf?_begin (ts : Tokens) :
    (Report.begin config file ts).findingOf? = Report.findingOf? { file, tokens := ts } := by
  funext e
  cases e <;> rfl

/-- What is told comes from the checks that are made. -/
theorem filterMap_wanted (c : Config) :
    (Check.wanted c source).filterMap (Report.findingOf? { file, tokens := tokenize source }) =
      (Check.found file source).filter c.asks := by
  rw [Check.wanted, Check.found, List.filterMap_filter, List.filter_filterMap]
  refine List.filterMap_congr fun e he => ?_
  cases hf : Report.findingOf? { file, tokens := tokenize source } e with
  | none => simp
  | some f =>
    rw [c.wanted_eq_asks (Check.proper_events source e he) hf]
    simp [Option.filter]

theorem findings_check : (check config file source).findings =
    ((Check.found file source).filter config.asks).foldl (Report.hold config.disabled) [] := by
  obtain ⟨n, hn⟩ := check_spec config file source
  rw [hn, findingOf?_begin, filterMap_wanted]

theorem findings_check_everything : (check config.everything file source).findings =
    (Check.found file source).foldl (Report.hold []) [] := by
  have hall : (Check.found file source).filter config.everything.asks = Check.found file source :=
    List.filter_eq_self.mpr fun _ _ => rfl
  rw [findings_check, hall]
  rfl

/-- The findings of a check are those of the check of everything, in the same order, without those
that the configuration leaves out; whether fixes are made does not matter. -/
theorem findings_filtered :
    (check config file source).findings =
        (check config.everything file source).findings.filter config.keeps ∧
      ∀ fixes, (check { config with fixes } file source).findings =
        (check config file source).findings := by
  have hfilter (c : Config) : (check c file source).findings =
      ((Check.found file source).foldl (Report.hold []) []).filter c.keeps := by
    rw [findings_check, ← c.foldl_hold_filter]
    rfl
  refine ⟨?_, fun fixes => ?_⟩
  · rw [findings_check_everything, hfilter]
  · rw [hfilter, hfilter]
    rfl

end
end PhpDoc
