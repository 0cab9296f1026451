import PhpDoc.Proofs.Fixes
/-!
No exception ends a check. Here the check is followed with all that could end it before there is a
report, and none of this happens: changesets are begun and ended in turn, the lines of a tag and
their tokens are there, and arguments fit their templates.
-/
namespace PhpDoc

/-- What would end a check before there is a report: a changeset begun or ended out of turn, a line
that a tag does not have, a token that the file does not have, or arguments that do not fit. -/
inductive Escape
  | changeset (e : FixError)
  | line (i : Nat)
  | token (i : Nat)
  | arguments (template : String) (args : List String)
deriving DecidableEq, Repr

namespace Report

def tellStrictly (r : Report) (f : Finding) (template : String) (args : List String) :
    Except (Failure Escape) Report :=
  if r.disabled.contains f.code || Text.fits template args then .ok (r.tell f).1
  else .error ⟨.arguments template args, r⟩

def writeStrictly (r : Report) (tag : Tag) (span : Nat × Nat) (spelled : String) :
    Except (Failure Escape) (Except (Failure FixError) Report) :=
  match tag.lines[(LinePosition.of tag.text span.1).line]?,
    tag.lines[(LinePosition.of tag.text span.2).line]? with
  | none, _ => .error ⟨.line (LinePosition.of tag.text span.1).line, r⟩
  | _, none => .error ⟨.line (LinePosition.of tag.text span.2).line, r⟩
  | some _, some stop =>
    match stop.token with
    | some last =>
      if last < r.tokens.size then .ok (r.writeType tag span spelled)
      else .error ⟨.token last, r⟩
    | none => .ok (r.writeType tag span spelled)

/-- Writes a type into its tag as a changeset of its own. Only what goes wrong between the beginning
and the end of the changeset is an outcome. -/
def fixStrictly (r : Report) (tag : Tag) (span : Nat × Nat) (spelled : String) :
    Except (Failure Escape) (Except (Failure FixError) Report) := do
  match r.beginChanges with
  | .error failed => throw (failed.map .changeset)
  | .ok begun =>
    match ← begun.writeStrictly tag span spelled with
    | .error failed => return .error failed
    | .ok written =>
      match written.commit with
      | .error failed => throw (failed.map .changeset)
      | .ok fixed => return .ok fixed

def enterStyleStrictly (r : Report) (code : Code) (tag : Tag) (span : Nat × Nat)
    (spelled : String) (args : List String) : Except (Failure Escape) Report := do
  let f := r.findingAt .warning true code.template tag.place code.id args
  let told ← r.tellStrictly f code.template args
  if r.admits f && r.fixing then
    match ← told.fixStrictly tag span spelled with
    | .ok fixed => return fixed
    | .error failed =>
      let message := failed.reason.message
      let left := failed.report.rollback
      left.tellStrictly (left.findingOf .internalFix tag.place [message])
        Code.internalFix.template [message]
  else return told

def enterStrictly (r : Report) : Event → Except (Failure Escape) Report
  | .finding code place args =>
    r.tellStrictly (r.findingOf code place args) code.template args
  | .style code tag span spelled args => r.enterStyleStrictly code tag span spelled args
  | .note _ _ => return r

def enterAllStrictly (r : Report) : List Event → Except (Failure Escape) Report
  | [] => return r
  | e :: es => do (← r.enterStrictly e).enterAllStrictly es

end Report

def Event.Sound (ts : Tokens) : Event → Prop
  | .finding code _ args => Text.fits code.template args
  | .style code tag _ _ args => Text.fits code.template args ∧ tag.StandsIn ts
  | .note _ _ => True

theorem Event.Proper.sound {ts : Tokens} {e : Event}
    (h : e.Proper fun t => t.StandsIn ts ∧ t.LaidOut ts) : e.Sound ts := by
  cases e with
  | finding => exact h.2
  | style => exact ⟨h.2.1, h.2.2.1.1⟩
  | note => trivial

theorem line_lt {ts : Tokens} {t : Tag} (h : t.StandsIn ts) (i : Nat) :
    (LinePosition.of t.text i).line < t.lines.length := by
  have hcount := h.count_text
  have hle : (t.text.toList.take i).count '\n' ≤ t.text.toList.count '\n' :=
    (List.take_sublist i t.text.toList).count_le '\n'
  simp only [LinePosition.of]
  omega

namespace Report
variable {r : Report}

theorem rollback_idle {ts : Tokens} (h : r.tokens = ts) : r.rollback.Idle ts :=
  ⟨h, rfl⟩

theorem tellStrictly_eq {f : Finding} {template : String} {args : List String}
    (h : Text.fits template args = true) : r.tellStrictly f template args = .ok (r.tell f).1 := by
  rw [tellStrictly, h, Bool.or_true, if_pos rfl]

/-- A type can be written into a tag of the file, or else that is no exception. -/
theorem writeStrictly_eq {tag : Tag} (h : tag.StandsIn r.tokens) (span : Nat × Nat)
    (spelled : String) : r.writeStrictly tag span spelled = .ok (r.writeType tag span spelled) := by
  have hstart := List.getElem?_eq_getElem (line_lt h span.1)
  have hstop := List.getElem?_eq_getElem (line_lt h span.2)
  rw [writeStrictly, hstart, hstop]
  simp only
  split
  · rename_i last hlast
    rw [if_pos ((h.lines _ (List.getElem_mem _)).token last hlast)]
  · rfl

theorem replace_open {first last : Int} {text : String} {r' : Report}
    (h : r.replace first last text = .ok r') : r'.changeset.isSome ∧ r'.tokens = r.tokens := by
  unfold replace at h
  split at h
  · cases h
  · split at h <;> cases h
    exact ⟨rfl, rfl⟩

theorem replace_failure {first last : Int} {text : String} {x : Failure FixError}
    (h : r.replace first last text = .error x) : x.report = r := by
  unfold replace at h
  split at h
  · cases h
    rfl
  · split at h <;> cases h
    rfl

section
variable {tag : Tag} {span : Nat × Nat} {spelled : String}

theorem writeType_open {r' : Report} (h : r.writeType tag span spelled = .ok r') :
    r'.changeset.isSome ∧ r'.tokens = r.tokens := by
  unfold writeType at h
  simp only at h
  split at h
  · split at h
    · exact replace_open h
    · cases h
  · cases h

/-- What cannot be written leaves the report as it was when its changeset had been opened. -/
theorem writeType_failure {x : Failure FixError} (h : r.writeType tag span spelled = .error x) :
    x.report = r := by
  unfold writeType at h
  simp only at h
  split at h
  · split at h
    · exact replace_failure h
    · cases h
      rfl
  · cases h
    rfl

end

/-- Between two events a changeset can be begun, and one that has been written to can be ended; after
a failure its changeset can be dropped. -/
theorem fixStrictly_eq {ts : Tokens} {tag : Tag} (hr : r.Idle ts) (h : tag.StandsIn ts)
    (span : Nat × Nat) (spelled : String) :
    r.fixStrictly tag span spelled = .ok (r.fix tag span spelled) ∧
      (∀ r', r.fix tag span spelled = .ok r' → r'.Idle ts) ∧
      ∀ x, r.fix tag span spelled = .error x → x.report.tokens = ts := by
  have hbegin : r.beginChanges = .ok { r with changeset := some [] } := by
    rw [beginChanges, hr.closed]
  have hwrite := writeStrictly_eq (r := { r with changeset := some [] }) (hr.tokens ▸ h) span spelled
  simp only [fixStrictly, fix, hbegin, bind, Except.bind, hwrite]
  cases hw : ({ r with changeset := some [] } : Report).writeType tag span spelled with
  | error failed =>
    refine ⟨rfl, by simp, ?_⟩
    rintro x ⟨⟩
    rw [writeType_failure hw]
    exact hr.tokens
  | ok written =>
    obtain ⟨hopen, htokens⟩ := writeType_open hw
    obtain ⟨changes, hchanges⟩ := Option.isSome_iff_exists.mp hopen
    simp only [commit, hchanges]
    refine ⟨rfl, ?_, by simp⟩
    rintro r' ⟨⟩
    exact ⟨htokens.trans hr.tokens, rfl⟩

/-- An event about the file is entered without an exception, and the report is idle after it. -/
theorem enterStrictly_eq {ts : Tokens} {e : Event} (hr : r.Idle ts) (he : e.Sound ts) :
    r.enterStrictly e = .ok (r.enter e).1 ∧ (r.enter e).1.Idle ts := by
  cases e with
  | finding code place args => exact ⟨tellStrictly_eq he, tell_idle hr _⟩
  | note entry forDocs => exact ⟨rfl, hr⟩
  | style code tag span spelled args =>
    obtain ⟨hfits, htag⟩ := he
    have htold := tell_idle hr (r.findingAt .warning true code.template tag.place code.id args)
    obtain ⟨hfix, hfixed, hleft⟩ := fixStrictly_eq htold htag span spelled
    simp only [enterStrictly, enterStyleStrictly, enter, enterStyle, tellStrictly_eq hfits, bind,
      Except.bind, hfix]
    split
    · cases hdone : (r.tell (r.findingAt .warning true code.template tag.place code.id
          args)).1.fix tag span spelled with
      | ok fixed => exact ⟨rfl, hfixed fixed hdone⟩
      | error failed =>
        exact ⟨tellStrictly_eq (Code.fits_one rfl failed.reason.message),
          tell_idle (rollback_idle (hleft failed hdone)) _⟩
    · exact ⟨rfl, htold⟩

theorem enterAllStrictly_eq {ts : Tokens} {es : List Event} (hr : r.Idle ts)
    (he : ∀ e ∈ es, e.Sound ts) : r.enterAllStrictly es = .ok (r.enterAll es).1 := by
  induction es generalizing r with
  | nil => rfl
  | cons e es ih =>
    obtain ⟨hhead, htail⟩ := List.forall_mem_cons.mp he
    obtain ⟨henter, hidle⟩ := enterStrictly_eq hr hhead
    simp only [enterAllStrictly, henter, bind, Except.bind]
    exact ih hidle htail

end Report

open Outline Check in
/-- A check comes to a report: the loops over the statements end, first to find the classes and then
to look at the documentation, and what is found is entered without an exception. -/
inductive Scans (config : Config) (file source : String) : Report → Prop
  | intro {first second : List Visit} {r : Report}
    (classes : Walks .none (tokenize source) {} ((tokenize source).atOrAfter 0)
      (tokenize source).size first)
    (documentation : Walks (bindTemplates (Visit.hierarchy first)) (tokenize source) {}
      ((tokenize source).atOrAfter 0) (tokenize source).size second)
    (entered : (Report.begin config file (tokenize source)).enterAllStrictly
      (second.flatMap (Asked.visitWithLog config (Visit.hierarchy first) (tokenize source))) =
        .ok r) :
    Scans config file source r

open Outline in
theorem walks_file {b : Binder} {source : String} {vs : List Visit} :
    Walks b (tokenize source) {} ((tokenize source).atOrAfter 0) (tokenize source).size vs ↔
      vs = visits b (tokenize source) :=
  walks_iff (tokenize_marked source) (Nat.lt_succ_of_le (Nat.sub_le _ _))

/-- What there is to say about a file is entered without an exception. -/
theorem enterAllStrictly_begin (config : Config) (file source : String) :
    (Report.begin config file (tokenize source)).enterAllStrictly
      (Check.asked config (tokenize source)) = .ok (check config file source) := by
  unfold check Check.run
  refine Report.enterAllStrictly_eq (idle_begin config file source) fun e he => ?_
  have hwanted : e ∈ Check.wanted config source := by
    rw [Check.wanted, ← Check.asked_eq]
    exact he
  exact (Check.fixable_of_mem_wanted config source e hwanted).sound

theorem scans_iff {config : Config} {file source : String} {r : Report} :
    Scans config file source r ↔ r = check config file source := by
  constructor
  · rintro ⟨classes, documentation, entered⟩
    obtain rfl := walks_file.mp classes
    obtain rfl := walks_file.mp documentation
    exact Except.ok.inj (entered.symm.trans (enterAllStrictly_begin config file source))
  · rintro rfl
    exact .intro (walks_file.mpr rfl) (walks_file.mpr rfl) (enterAllStrictly_begin config file source)

open Outline in
/-- Every check comes to its report and to no other. On the way every statement, at whatever position
and in whatever scope, proceeds, and the loop over the statements from there on has exactly one
answer; the bound on the names of an import statement is of no account. A bound that an interpreter
puts on the nesting of calls is no part of the model. -/
theorem scan_ends (config : Config) (file source : String) :
    (∀ r, Scans config file source r ↔ r = check config file source) ∧
      ∀ (b : Binder) (scope : Scope) (i : Nat),
        Proceeds b (tokenize source) scope i ∧
        (∀ stop vs, Walks b (tokenize source) scope i stop vs ↔
          vs = walk b (tokenize source) ((tokenize source).size + 1) scope i stop) ∧
        ∀ classes more items,
          Step.Same (tokenize source) (importList classes ((tokenize source).size + 1 + more) scope)
            (importList classes ((tokenize source).size + 1) scope) ⟨i, items⟩ := by
  have hm := tokenize_marked source
  refine ⟨fun r => scans_iff, fun b scope i => ⟨statement_proceeds hm b scope i,
    fun stop vs => walks_iff hm ?_, fun classes more items => importList_same classes ?_ ?_⟩⟩ <;>
  omega

end PhpDoc
