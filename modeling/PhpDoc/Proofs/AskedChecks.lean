import Mathlib.Data.List.Basic
import PhpDoc.Check.File
/-!
Asking early and asking late. The checks ask the configuration where they look; that comes to the same
as saying all there is to say, and keeping of it what is wanted.
-/
namespace PhpDoc

abbrev Config.wants (config : Config) : Event → Bool :=
  Event.wanted config.checksStyle config.checksDocs

namespace Check.Asked
open Event
variable (config : Config) (h : Hierarchy) (scope : Scope)

theorem filter_when (c : Bool) (e : Event) :
    (when c e).filter config.wants = when (c && config.wants e) e := by
  cases c <;> cases hw : config.wants e <;> simp [when, hw]

/-- A finding on a tag that does not ask for documentation is always wanted. -/
theorem wants_onTag (t : Tag) (args : List String) {code : Code} (hcode : code.asksForDocs = false) :
    config.wants (onTag code t args) = true := by
  simp [onTag, wanted, hcode]

theorem filter_onTag (t : Tag) (args : List String) {code : Code} (hcode : code.asksForDocs = false) :
    [onTag code t args].filter config.wants = [onTag code t args] := by
  rw [List.filter_singleton, wants_onTag config t args hcode]
  rfl

theorem filter_when_onTag (c : Bool) (t : Tag) (args : List String) {code : Code}
    (hcode : code.asksForDocs = false) :
    (when c (onTag code t args)).filter config.wants = when c (onTag code t args) := by
  rw [filter_when, wants_onTag config t args hcode, Bool.and_true]

theorem filter_reading (text : String) (typed : TypedTag) :
    (reading text typed).filter config.wants = reading text typed := by
  refine List.filter_eq_self.mpr fun e he => ?_
  rw [List.eq_of_mem_replicate he]
  simp [wanted]

theorem filter_spelling (code : Code) (t : Tag) (typed : TypedTag) (args : List String) :
    (Event.spelling code t typed args).filter config.wants =
      spelling config code t typed args := by
  have hwants : ∀ e ∈ Event.spelling code t typed args, config.wants e = config.checksStyle := by
    intro e he
    unfold Event.spelling when at he
    split at he
    · split at he
      · rw [List.mem_singleton.mp he]
        rfl
      · cases he
    · cases he
  rw [List.filter_congr hwants, spelling]
  cases config.checksStyle <;> simp

theorem filter_onTags (tags : List Tag) (code : Code) (args : Tag → List String)
    (hcode : code.asksForDocs = false) :
    (tags.map fun t => onTag code t (args t)).filter config.wants =
      tags.map fun t => onTag code t (args t) := by
  refine List.filter_eq_self.mpr fun e he => ?_
  obtain ⟨t, -, rfl⟩ := List.mem_map.mp he
  exact wants_onTag config t _ hcode

theorem filter_misplaced (c : DocComment) (names : List String) :
    (misplaced c names).filter config.wants = misplaced c names :=
  filter_onTags config _ .tagMisplaced (fun t => [t.name]) rfl

theorem filter_flatMap_of {α : Type} {xs : List α} {f g : α → List Event}
    (hfg : ∀ x, (f x).filter config.wants = g x) :
    (xs.flatMap f).filter config.wants = xs.flatMap g := by
  rw [List.filter_flatMap]
  exact congrArg xs.flatMap (funext hfg)

theorem template_eq (t : Tag) :
    (Check.template h scope t).filter config.wants = template config h scope t := by
  unfold Check.template template
  simp only
  generalize readTemplate h scope t = typed
  rw [List.filter_append, filter_reading]
  cases typed.name with
  | none => rw [filter_onTag config _ _ rfl]
  | some name =>
    cases typed.type with
    | none => rw [filter_onTag config _ _ rfl]
    | some type => rw [filter_spelling]

theorem templates_eq (ts : List Tag) :
    (Check.templates h scope ts).filter config.wants = templates config h scope ts := by
  induction ts generalizing scope with
  | nil => rfl
  | cons t ts ih => rw [Check.templates, templates, List.filter_append, template_eq, ih]

theorem property_eq (t : Tag) :
    (Check.property h scope t).filter config.wants = property config h scope t := by
  unfold Check.property property
  simp only
  rw [List.filter_append, List.filter_append, filter_reading, filter_when_onTag config _ _ _ rfl]
  split
  · rw [filter_onTag config _ _ rfl]
  · rw [filter_spelling]

theorem classLike_eq (c : DocComment) :
    (Check.classLike h scope c).filter config.wants = classLike config h scope c := by
  rw [Check.classLike, classLike, List.filter_append, filter_misplaced,
    filter_flatMap_of config (property_eq config h scope)]

theorem native_eq (written : Option String) :
    (native h scope written).2.filter config.wants = (native h scope written).2 := by
  unfold native
  split
  · rfl
  · rfl
  · exact filter_reading config _ _

theorem variableTag_eq (names : List String) (native : Option DocType) (t : Tag) :
    (Check.variableTag h scope names native t).filter config.wants =
      variableTag config h scope names native t := by
  unfold Check.variableTag variableTag
  simp only
  rw [List.filter_append, List.filter_append, filter_reading, filter_when_onTag config _ _ _ rfl]
  split
  · rw [filter_onTag config _ _ rfl]
  · rw [List.filter_append, filter_spelling, filter_when_onTag config _ _ _ rfl]

theorem variableDocs_eq (place : Nat) (names : List String) (comment : Option DocComment)
    (written : Option String) :
    (Check.variableDocs h scope place names comment written).filter config.wants =
      variableDocs config h scope place names comment written := by
  cases comment with
  | none =>
    rw [Check.variableDocs, variableDocs]
    cases hdocs : config.checksDocs <;> simp [wanted, Code.asksForDocs, hdocs, when]
  | some c =>
    rw [Check.variableDocs, variableDocs]
    simp only [List.filter_append]
    rw [filter_when, filter_onTags config _ .varMultiple (fun _ => []) rfl, native_eq,
      filter_flatMap_of config (variableTag_eq config h scope _ _), filter_misplaced]
    simp [wanted, Code.asksForDocs]

theorem paramTag_eq (p : ParamTag) :
    (Check.paramTag p).filter config.wants = paramTag config p := by
  unfold Check.paramTag paramTag
  rw [List.filter_append, List.filter_append, filter_reading, filter_when_onTag config _ _ _ rfl]
  split
  · rw [filter_onTag config _ _ rfl]
  · rw [filter_spelling]

theorem paramPair_eq (positional : Bool) (p : ParamTag) (q : Parameter) :
    (paramPair h scope positional p q).filter config.wants = paramPair h scope positional p q := by
  unfold paramPair
  simp only [List.filter_append, filter_when, filter_reading]
  simp [onTag, wanted, Code.asksForDocs]

theorem params_eq (place : Nat) (listed : List Parameter) (tags : List Tag) :
    (Check.params h scope place listed tags).filter config.wants =
      params config h scope place listed tags := by
  unfold Check.params params
  simp only
  rw [List.filter_append, filter_flatMap_of config (paramTag_eq config)]
  split
  · rfl
  · rw [List.filter_append, filter_when, filter_flatMap_of config]
    · simp [wanted, Code.asksForDocs]
      rfl
    · rintro ⟨p, q⟩
      exact paramPair_eq config h scope _ p q

theorem missingParams_eq (place : Nat) (listed : List Parameter) (tags : List Tag) :
    (missingParams h scope place listed tags).filter config.wants =
      if config.checksDocs then missingParams h scope place listed tags else [] := by
  have hwants : ∀ e ∈ missingParams h scope place listed tags,
      config.wants e = config.checksDocs := by
    intro e he
    rcases List.mem_append.mp he with hread | hlist
    · obtain ⟨p, -, hp⟩ := List.mem_flatMap.mp hread
      rw [List.eq_of_mem_replicate hp]
      simp [wanted]
    · obtain ⟨q, -, rfl⟩ := List.mem_map.mp hlist
      simp [wanted, Code.asksForDocs]
  rw [List.filter_congr hwants]
  cases config.checksDocs <;> simp

theorem returnTag_eq (native : Option DocType) (t : Tag) :
    (Check.returnTag h scope native t).filter config.wants =
      returnTag config h scope native t := by
  unfold Check.returnTag returnTag
  simp only
  rw [List.filter_append, filter_reading]
  split
  · rw [filter_onTag config _ _ rfl]
  · rw [List.filter_append, filter_spelling, filter_when_onTag config _ _ _ rfl]

theorem function_eq (ts : Tokens) (place : Nat) (name : Option String)
    (comment : Option DocComment) :
    (Check.function h ts scope place name comment).filter config.wants =
      function config h scope ts place name comment := by
  cases comment with
  | none =>
    rw [Check.function, function]
    simp only [filter_when]
    simp [wanted, Code.asksForDocs, Bool.and_comm]
  | some c =>
    have hmissing (tags : List Tag) :
        (if name.isSome then missingParams h scope place (Parameter.list ts place) tags
          else []).filter config.wants =
          if config.checksDocs && name.isSome then
            missingParams h scope place (Parameter.list ts place) tags else [] := by
      cases name with
      | none => simp
      | some n => simpa using missingParams_eq config h scope place _ tags
    have hreturns (missing : Bool) (native : Option DocType) :
        (missing && name.any (returnsValue · native) && config.checksDocs) =
          (config.checksDocs && name.isSome && missing && name.any (returnsValue · native)) := by
      cases name <;> cases config.checksDocs <;> cases missing <;> simp
    rw [Check.function, function]
    simp only [List.filter_append]
    rw [params_eq, hmissing, native_eq, filter_onTags config _ .funRetMultiple (fun _ => []) rfl,
      filter_flatMap_of config (returnTag_eq config h scope _), filter_when, filter_misplaced,
      ← hreturns]
    simp [wanted, Code.asksForDocs]

theorem visitWithLog_eq (ts : Tokens) (v : Visit) :
    (Check.visitWithLog h ts v).filter config.wants = visitWithLog config h ts v := by
  have hlog : ((walkLog 2 v).map fun entry => Event.note entry false).filter config.wants =
      (walkLog 2 v).map fun entry => Event.note entry false := by
    refine List.filter_eq_self.mpr fun e he => ?_
    obtain ⟨entry, -, rfl⟩ := List.mem_map.mp he
    simp [wanted]
  rw [Check.visitWithLog, visitWithLog, List.filter_append, hlog]
  refine congrArg (· ++ _) ?_
  cases v with
  | templates s c => exact templates_eq config h s _
  | classDocs s c => exact classLike_eq config h s c
  | functionDocs s place name c => exact function_eq config h s ts place name c
  | variableDocs s place names c written => exact variableDocs_eq config h s place names c written
  | comment | fault => simp [Check.visit, visit, wanted, Code.asksForDocs]
  | nameSpace | imported | classLike | function | declared => rfl

end Check.Asked

/-- What a check says about a file is what there is to say about it, as far as it is wanted. -/
theorem Check.asked_eq (config : Config) (ts : Tokens) :
    asked config ts = (events ts).filter config.wants :=
  (Asked.filter_flatMap_of config (Asked.visitWithLog_eq config (hierarchy ts) ts)).symm

end PhpDoc
