import PhpDoc.Proofs.Escapes
import PhpDoc.Proofs.Fixes
/-!
The report as a store. Whatever is asked of it and in whatever order, what it refuses leaves no
trace, no finding is held twice, and the texts are those of the tokens with the replacements that
have been committed.
-/
namespace PhpDoc

/-- What makes a finding the same as another one of the file. -/
def Finding.key (f : Finding) : String × Int × Int × String :=
  (f.code, f.location.line, f.location.column, f.message)

namespace Report

inductive Request
  | finding (severity : Severity) (fixable : Bool) (template : String) (place : Int) (code : String)
    (args : List String)
  | begin
  | replace (first last : Int) (text : String)
  | commit
  | rollback
deriving DecidableEq, Repr

def perform (r : Report) : Request → Except (Failure Escape) Report
  | .finding severity fixable template place code args =>
    r.tellStrictly (r.findingAt severity fixable template place code args) template args
  | .begin => r.beginChanges.mapError (·.map .changeset)
  | .replace first last text => (r.replace first last text).mapError (·.map .changeset)
  | .commit => r.commit.mapError (·.map .changeset)
  | .rollback => .ok r.rollback

def after (r : Report) (q : Request) : Report :=
  match r.perform q with
  | .ok done => done
  | .error failed => failed.report

def run (r : Report) (qs : List Request) : Report :=
  qs.foldl after r

def granted (r : Report) : List Request → List Request
  | [] => []
  | q :: qs => (if (r.perform q).isOk then [q] else []) ++ (r.after q).granted qs

namespace Request

def opens (opened : Bool) : Request → Bool
  | .begin => true
  | .commit | .rollback => false
  | .finding .. | .replace .. => opened

def opened (qs : List Request) : Bool :=
  qs.foldl opens false

def refusal (count : Nat) (opened : Bool) : Request → Option FixError
  | .begin => if opened then some .alreadyOpen else none
  | .replace first last _ =>
    if opened then
      if 0 ≤ first ∧ first ≤ last ∧ last < count then none else some (.outOfBounds first last)
    else some .notOpen
  | .commit => if opened then none else some .notOpen
  | .finding .. | .rollback => none

def commits : List Request → Bool
  | [] => false
  | .commit :: _ => true
  | .rollback :: _ => false
  | _ :: qs => commits qs

/-- The text that a request puts in the place of a token: that of the replacement in the place of
the first token, nothing in the place of the others. -/
def textAt (i : Nat) : Request → Option String
  | .replace first last text =>
    if i = first then some text else if first ≤ i ∧ i ≤ last then some "" else none
  | _ => none

/-- The text that the last committed replacement of a token puts in its place. -/
def lastText (i : Nat) : List Request → Option String
  | [] => none
  | q :: qs => (lastText i qs).or (if commits qs then q.textAt i else none)

end Request

variable {r r' last : Report} {q : Request} {qs : List Request}

def asked? (r : Report) : Request → Option Finding
  | .finding severity fixable template place code args =>
    some (r.findingAt severity fixable template place code args)
  | _ => none

inductive Performs (r : Report) : Request → Report → Prop
  | finding {severity : Severity} {fixable : Bool} {template : String} {place : Int} {code : String}
    {args : List String} {f : Finding}
    (told : f = r.findingAt severity fixable template place code args) :
    Performs r (.finding severity fixable template place code args)
      { r with findings := hold r.disabled r.findings f }
  | begin (closed : r.changeset = none) : Performs r .begin { r with changeset := some [] }
  | replace {first last : Int} {text : String} {changes : Changeset}
    (isOpen : r.changeset = some changes)
    (bounds : 0 ≤ first ∧ first ≤ last ∧ last < r.tokens.size) :
    Performs r (.replace first last text)
      { r with changeset := some (changes ++ replacements first.toNat last.toNat text) }
  | commit {changes : Changeset} (isOpen : r.changeset = some changes) : Performs r .commit
      { r with texts := applyTo r.texts changes, changeset := none, fixes := r.fixes + 1 }
  | rollback : Performs r .rollback { r with changeset := none }

theorem performs_of_ok (h : r.perform q = .ok r') : r.Performs q r' := by
  cases q with
  | finding severity fixable template place code args =>
    simp only [perform, tellStrictly] at h
    split at h
    · obtain rfl := Except.ok.inj h
      rw [tell_eq]
      exact .finding rfl
    · cases h
  | begin =>
    simp only [perform, beginChanges] at h
    split at h
    · cases h
    · rename_i hclosed
      obtain rfl := Except.ok.inj h
      exact .begin hclosed
  | replace first last text =>
    simp only [perform, replace] at h
    split at h
    · cases h
    · rename_i changes hopen
      split at h
      · rename_i hbounds
        obtain rfl := Except.ok.inj h
        exact .replace hopen hbounds
      · cases h
  | commit =>
    simp only [perform, commit] at h
    split at h
    · cases h
    · rename_i changes hopen
      obtain rfl := Except.ok.inj h
      exact .commit hopen
  | rollback =>
    obtain rfl := Except.ok.inj h
    exact .rollback

/-- A request that fails leaves the report as it was. -/
theorem report_of_error {x : Failure Escape} (h : r.perform q = .error x) : x.report = r := by
  cases q with
  | finding severity fixable template place code args =>
    simp only [perform, tellStrictly] at h
    split at h
    · cases h
    · obtain rfl := Except.error.inj h
      rfl
  | begin =>
    simp only [perform, beginChanges] at h
    split at h
    · obtain rfl := Except.error.inj h
      rfl
    · cases h
  | replace first last text =>
    cases hreplace : r.replace first last text with
    | ok done =>
      rw [perform, hreplace] at h
      cases h
    | error failed =>
      rw [perform, hreplace] at h
      obtain rfl := Except.error.inj h
      exact replace_failure hreplace
  | commit =>
    simp only [perform, commit] at h
    split at h
    · obtain rfl := Except.error.inj h
      rfl
    · cases h
  | rollback => cases h

/-- The requests that a report refuses. -/
theorem perform_refused_iff {e : FixError} :
    (∃ x, r.perform q = .error x ∧ x.reason = .changeset e) ↔
      q.refusal r.tokens.size r.changeset.isSome = some e := by
  cases q with
  | finding severity fixable template place code args =>
    simp only [perform, tellStrictly, Request.refusal, reduceCtorEq, iff_false]
    split
    · simp
    · rintro ⟨x, hx, hreason⟩
      obtain rfl := Except.error.inj hx
      cases hreason
  | begin =>
    cases hc : r.changeset <;>
      simp [perform, beginChanges, hc, Request.refusal, Except.mapError, Failure.map]
  | replace first last text =>
    cases hc : r.changeset with
    | none => simp [perform, replace, hc, Request.refusal, Except.mapError, Failure.map]
    | some changes =>
      simp only [perform, replace, hc, Request.refusal, Option.isSome_some, if_true]
      split <;> simp [Except.mapError, Failure.map]
  | commit =>
    cases hc : r.changeset <;>
      simp [perform, commit, hc, Request.refusal, Except.mapError, Failure.map]
  | rollback => simp [perform, Request.refusal]

inductive Grants : Report → List Request → Report → Prop
  | nil (r : Report) : Grants r [] r
  | cons {r next last : Report} {q : Request} {qs : List Request} (head : r.perform q = .ok next)
    (tail : Grants next qs last) : Grants r (q :: qs) last

theorem after_of_ok (h : r.perform q = .ok r') : r.after q = r' := by
  rw [after, h]

theorem after_of_error {x : Failure Escape} (h : r.perform q = .error x) : r.after q = r := by
  rw [after, h]
  exact report_of_error h

theorem granted_of_ok (h : r.perform q = .ok r') : r.granted (q :: qs) = q :: r'.granted qs := by
  rw [granted, after_of_ok h, h]
  rfl

theorem granted_of_error {x : Failure Escape} (h : r.perform q = .error x) :
    r.granted (q :: qs) = r.granted qs := by
  rw [granted, after_of_error h, h]
  rfl

/-- The requests that are granted are granted by themselves, and come to the same report. -/
theorem grants_granted (r : Report) (qs : List Request) : r.Grants (r.granted qs) (r.run qs) := by
  induction qs generalizing r with
  | nil => exact .nil r
  | cons q qs ih =>
    have hrest := ih (r.after q)
    cases hq : r.perform q with
    | ok next =>
      rw [after_of_ok hq] at hrest
      rw [granted_of_ok hq, run, List.foldl_cons, after_of_ok hq]
      exact .cons hq hrest
    | error e =>
      rw [after_of_error hq] at hrest
      rwa [granted_of_error hq, run, List.foldl_cons, after_of_error hq]

theorem Grants.run_eq (h : r.Grants qs last) : r.run qs = last := by
  induction h with
  | nil => rfl
  | cons head _ ih =>
    rw [run, List.foldl_cons, after_of_ok head]
    exact ih

structure Alike (r r' : Report) : Prop where
  file : r'.file = r.file
  tokens : r'.tokens = r.tokens
  disabled : r'.disabled = r.disabled
  size : r'.texts.size = r.texts.size

theorem size_applyTo (texts : Array String) (changes : Changeset) :
    (applyTo texts changes).size = texts.size := by
  induction changes generalizing texts with
  | nil => rfl
  | cons c changes ih =>
    rw [applyTo, List.foldl_cons]
    exact (ih _).trans (Array.size_setIfInBounds ..)

theorem Performs.alike (h : r.Performs q r') : r.Alike r' := by
  cases h with
  | commit => exact ⟨rfl, rfl, rfl, size_applyTo _ _⟩
  | finding | begin | replace | rollback => exact ⟨rfl, rfl, rfl, rfl⟩

theorem Grants.alike (h : r.Grants qs last) : r.Alike last := by
  induction h with
  | nil => exact ⟨rfl, rfl, rfl, rfl⟩
  | cons head _ ih =>
    obtain ⟨hf, ht, hd, hs⟩ := (performs_of_ok head).alike
    exact ⟨ih.file.trans hf, ih.tokens.trans ht, ih.disabled.trans hd, ih.size.trans hs⟩

theorem Alike.asked? (h : r.Alike r') : r'.asked? = r.asked? := by
  funext q
  cases q with
  | finding => simp only [Report.asked?, findingAt, locate, h.tokens, h.file]
  | begin | replace | commit | rollback => rfl

theorem Performs.isSome_changeset (h : r.Performs q r') :
    r'.changeset.isSome = q.opens r.changeset.isSome := by
  cases h with
  | replace isOpen => simp [Request.opens, isOpen]
  | finding | begin | commit | rollback => rfl

/-- Whether a changeset is open is told by the requests. -/
theorem Grants.isSome_changeset (h : r.Grants qs last) :
    last.changeset.isSome = qs.foldl Request.opens r.changeset.isSome := by
  induction h with
  | nil => rfl
  | cons head _ ih => rw [ih, (performs_of_ok head).isSome_changeset, List.foldl_cons]

theorem Performs.fixes_eq (h : r.Performs q r') : r'.fixes = r.fixes + [q].count .commit := by
  cases h with
  | finding | begin | replace | commit | rollback => rfl

/-- The fixes are the changesets that are committed. -/
theorem Grants.fixes_eq (h : r.Grants qs last) : last.fixes = r.fixes + qs.count .commit := by
  induction h with
  | nil => rfl
  | @cons r next last q qs head _ ih =>
    rw [ih, (performs_of_ok head).fixes_eq, Nat.add_assoc, ← List.count_append]
    rfl

def textOf (i : Nat) : Changeset → Option String
  | [] => none
  | c :: changes => (textOf i changes).or (if c.1 = i then some c.2 else none)

theorem textOf_append (i : Nat) (earlier later : Changeset) :
    textOf i (earlier ++ later) = (textOf i later).or (textOf i earlier) := by
  induction earlier with
  | nil => simp [textOf]
  | cons c earlier ih => rw [List.cons_append, textOf, textOf, ih, Option.or_assoc]

theorem textOf_erased (i : Nat) (is : List Nat) :
    textOf i (is.map fun j => (j, "")) = if i ∈ is then some "" else none := by
  induction is with
  | nil => rfl
  | cons j is ih =>
    rw [List.map_cons, textOf, ih]
    by_cases hi : i ∈ is
    · simp [hi]
    · simp [hi, eq_comm]

theorem textOf_replacements {first last : Int} (i : Nat) (h : 0 ≤ first ∧ first ≤ last)
    (text : String) : textOf i (replacements first.toNat last.toNat text) =
      (Request.replace first last text).textAt i := by
  have hmem : i ∈ List.range' (first.toNat + 1) (last.toNat - first.toNat) ↔
      ¬(i : Int) = first ∧ first ≤ i ∧ i ≤ last := by
    rw [List.mem_range'_1]
    omega
  have hfirst : first.toNat = i ↔ (i : Int) = first := by omega
  rw [replacements, textOf, textOf_erased, Request.textAt]
  by_cases hi : (i : Int) = first
  · simp [hmem, hfirst, hi]
  · simp [hmem, hfirst, hi]

/-- The text of a token after some replacements. -/
theorem getElem?_applyTo_eq (texts : Array String) (changes : Changeset) (i : Nat) :
    (applyTo texts changes)[i]? = texts[i]?.map fun t => (textOf i changes).getD t := by
  induction changes generalizing texts with
  | nil => simp [applyTo, textOf]
  | cons c changes ih =>
    have hset : (texts.setIfInBounds c.1 c.2)[i]? =
        texts[i]?.map fun t => (if c.1 = i then some c.2 else none).getD t := by
      rw [Array.getElem?_setIfInBounds]
      split
      · rename_i hi
        by_cases hlt : i < texts.size <;> simp [hi, hlt]
      · simp
    rw [applyTo, List.foldl_cons]
    refine (ih _).trans ?_
    rw [hset, Option.map_map]
    refine Option.map_congr fun t _ => ?_
    cases h : textOf i changes <;> simp [textOf, h]

def textAfter (r : Report) (i : Nat) (qs : List Request) : Option String :=
  r.texts[i]?.map fun t => (Request.lastText i qs).getD
    ((if Request.commits qs then textOf i (r.changeset.getD []) else none).getD t)

/-- A request changes nothing about the text that a token comes to have. -/
theorem Performs.textAfter_eq (h : r.Performs q r') (i : Nat) (qs : List Request) :
    r'.textAfter i qs = r.textAfter i (q :: qs) := by
  unfold textAfter
  cases h with
  | finding =>
    refine Option.map_congr fun t _ => ?_
    simp only [Request.lastText, Request.textAt, ite_self, Option.or_none]
    rfl
  | begin closed =>
    refine Option.map_congr fun t _ => ?_
    simp only [Request.lastText, Request.textAt, Request.commits, closed, ite_self, Option.or_none,
      Option.getD_some, Option.getD_none, textOf]
  | @replace first last text changes isOpen bounds =>
    refine Option.map_congr fun t _ => ?_
    simp only [Request.lastText, Request.commits, isOpen, Option.getD_some, textOf_append,
      textOf_replacements i ⟨bounds.1, bounds.2.1⟩]
    cases Request.commits qs <;> cases Request.lastText i qs <;>
      cases (Request.replace first last text).textAt i <;> rfl
  | @commit changes isOpen =>
    rw [getElem?_applyTo_eq, Option.map_map]
    refine Option.map_congr fun t _ => ?_
    simp only [Function.comp_apply, Request.lastText, Request.textAt, Request.commits, isOpen,
      ite_self, if_true, Option.or_none, Option.getD_some, Option.getD_none, textOf]
  | rollback =>
    refine Option.map_congr fun t _ => ?_
    simp only [Request.lastText, Request.textAt, Request.commits, ite_self, Option.or_none,
      Option.getD_none, textOf, Bool.false_eq_true, if_false]

theorem Grants.getElem?_texts (h : r.Grants qs last) (i : Nat) :
    last.texts[i]? = r.textAfter i qs := by
  induction h with
  | nil => simp [textAfter, Request.lastText, Request.commits]
  | cons head _ ih => exact ih.trans ((performs_of_ok head).textAfter_eq i _)

section
variable {disabled : List String} {held fs : List Finding} {f g : Finding}

theorem sameFinding_iff : sameFinding f g = true ↔ f.key = g.key := by
  simp [sameFinding, Finding.key, and_assoc]

theorem any_sameFinding_iff : held.any (sameFinding f) = true ↔ f.key ∈ held.map Finding.key := by
  rw [List.any_eq_true, List.mem_map]
  refine exists_congr fun g => and_congr_right fun _ => ?_
  rw [sameFinding_iff, eq_comm]

/-- A finding is held once, unless its code is disabled. -/
theorem hold_cases (disabled : List String) (held : List Finding) (f : Finding) :
    f.code ∉ disabled ∧ f.key ∉ held.map Finding.key ∧ hold disabled held f = held ++ [f] ∨
      (f.code ∈ disabled ∨ f.key ∈ held.map Finding.key) ∧ hold disabled held f = held := by
  have hiff : (!disabled.contains f.code && !held.any (sameFinding f)) = true ↔
      f.code ∉ disabled ∧ f.key ∉ held.map Finding.key := by
    rw [Bool.and_eq_true, Bool.not_eq_true', Bool.not_eq_true', ← Bool.not_eq_true,
      ← Bool.not_eq_true, any_sameFinding_iff, List.contains_iff_mem]
  unfold hold
  split
  · rename_i h
    obtain ⟨hcode, hkey⟩ := hiff.mp h
    exact .inl ⟨hcode, hkey, rfl⟩
  · rename_i h
    refine .inr ⟨?_, rfl⟩
    by_contra hnot
    exact h (hiff.mpr (not_or.mp hnot))

/-- Findings sifted from others: none is disabled, no two are the same, and each of the others that
is not disabled has one that is the same. -/
structure Sifted (disabled : List String) (told held : List Finding) : Prop where
  enabled : ∀ f ∈ held, f.code ∉ disabled
  distinct : (held.map Finding.key).Nodup
  subset : held ⊆ told
  complete : ∀ f ∈ told, f.code ∉ disabled → f.key ∈ held.map Finding.key

theorem Sifted.hold (h : Sifted disabled fs held) (f : Finding) :
    Sifted disabled (fs ++ [f]) (hold disabled held f) := by
  rcases hold_cases disabled held f with ⟨hcode, hkey, heq⟩ | ⟨hdrop, heq⟩
  · rw [heq]
    refine ⟨?_, ?_, ?_, ?_⟩
    · exact List.forall_mem_append.mpr ⟨h.enabled, by simpa using hcode⟩
    · rw [List.map_append]
      refine List.nodup_append.mpr ⟨h.distinct, List.nodup_singleton _, ?_⟩
      rintro k hk l hl rfl
      exact hkey (List.mem_singleton.mp hl ▸ hk)
    · exact List.append_subset.mpr
        ⟨List.subset_append_of_subset_left _ h.subset, List.subset_append_right _ _⟩
    · refine List.forall_mem_append.mpr ⟨fun g hg hcode => ?_, ?_⟩
      · rw [List.map_append]
        exact List.mem_append_left _ (h.complete g hg hcode)
      · simp
  · rw [heq]
    refine ⟨h.enabled, h.distinct, List.subset_append_of_subset_left _ h.subset, ?_⟩
    refine List.forall_mem_append.mpr ⟨h.complete, List.forall_mem_singleton.mpr fun hcode => ?_⟩
    exact hdrop.resolve_left fun hin => hcode hin

end

theorem Performs.findings_eq (h : r.Performs q r') :
    r'.findings = (r.asked? q).toList.foldl (hold r.disabled) r.findings := by
  cases h with
  | finding told =>
    rw [told]
    rfl
  | begin | replace | commit | rollback => rfl

/-- The findings that are held are sifted from those that were told. -/
theorem Grants.sifted (h : r.Grants qs last) {told : List Finding}
    (hr : Sifted r.disabled told r.findings) :
    Sifted r.disabled (told ++ qs.filterMap r.asked?) last.findings := by
  induction h generalizing told with
  | nil => simpa using hr
  | @cons r next last q qs head _ ih =>
    have hstep := performs_of_ok head
    have hnext : Sifted r.disabled (told ++ (r.asked? q).toList) next.findings := by
      rw [hstep.findings_eq]
      cases r.asked? q with
      | none => simpa using hr
      | some f => exact hr.hold f
    rw [← hstep.alike.disabled] at hnext ⊢
    have hlast := ih hnext
    rw [hstep.alike.asked?, List.append_assoc] at hlast
    have hcons : (q :: qs).filterMap r.asked? = (r.asked? q).toList ++ qs.filterMap r.asked? := by
      rw [List.filterMap_cons]
      cases r.asked? q <;> rfl
    rwa [hcons]

/-- A report as it follows from the requests that it has granted. -/
structure Replays (start : Report) (done : List Request) (r : Report) : Prop where
  findings : Sifted start.disabled (done.filterMap start.asked?) r.findings
  opened : r.changeset.isSome = Request.opened done
  fixes : r.fixes = done.count .commit
  size : r.texts.size = start.tokens.size
  texts : ∀ i t, start.tokens[i]? = some t →
    r.texts[i]? = some ((Request.lastText i done).getD t.text)

def fresh (file : String) (ts : Tokens) (fixing : Bool) (disabled : List String) : Report :=
  { file, tokens := ts, fixing, disabled }

/-- A store of findings and changes, whatever has been asked of it before. A request that fails leaves
the report as it was before it, and what is granted would be granted without it. A request is
refused exactly if a changeset is open or not open out of turn, or if its range is not one of the
file. Of the findings that were told those are held that are not disabled, each once; the fixes are
the changesets committed; and every token has the text of its last committed replacement, or else
its own. -/
theorem changesets_atomic (file : String) (ts : Tokens) (fixing : Bool) (disabled : List String)
    (qs : List Request) :
    let start := fresh file ts fixing disabled
    (∀ q x, (start.run qs).perform q = .error x →
      x.report = start.run qs ∧ start.run (qs ++ [q]) = start.run qs) ∧
    (∀ q e, (∃ x, (start.run qs).perform q = .error x ∧ x.reason = .changeset e) ↔
      q.refusal ts.size (Request.opened (start.granted qs)) = some e) ∧
    start.run (start.granted qs) = start.run qs ∧
    start.Replays (start.granted qs) (start.run qs) := by
  intro start
  have hgrants := start.grants_granted qs
  have hopened := hgrants.isSome_changeset
  refine ⟨fun q x hx => ⟨report_of_error hx, ?_⟩, fun q e => ?_, hgrants.run_eq, ?_, hopened, ?_, ?_,
    fun i t ht => ?_⟩
  · rw [run, List.foldl_append, ← run]
    exact after_of_error hx
  · rw [perform_refused_iff, hgrants.alike.tokens, hopened]
    rfl
  · have hnone : Sifted disabled [] [] := ⟨by simp, by simp, by simp, by simp⟩
    exact hgrants.sifted hnone
  · exact hgrants.fixes_eq.trans (Nat.zero_add _)
  · rw [hgrants.alike.size]
    exact Array.size_map ..
  · have htext : start.texts[i]? = some t.text := by
      have hmap : start.texts = start.tokens.map (·.text) := rfl
      rw [hmap, Array.getElem?_map, ht, Option.map_some]
    rw [hgrants.getElem?_texts, textAfter, htext, Option.map_some]
    cases Request.commits (start.granted qs) <;> rfl

example : Request.lastText 1 [.begin, .replace 0 2 "a", .rollback, .begin, .replace 0 1 "b",
    .replace 1 1 "c", .commit, .begin, .replace 1 1 "d"] = some "c" := by
  decide

end Report
end PhpDoc
