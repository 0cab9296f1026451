import PhpDoc.Proofs.Events
import PhpDoc.Proofs.RewrittenComments
/-!
The types that are read from the tags of a file. All that is found about spelling is about one of them,
and the scope in which a type is read matters only as far as it binds names.
-/
namespace PhpDoc

section
variable (f : Nat → Nat) (s : Scope) (h : Hierarchy) (wide : Bool)

theorem Grammar.nested_renumber (depth : Nat) :
    nested ⟨s.renumber f, h, wide⟩ depth = nested ⟨s, h, wide⟩ depth := by
  induction depth with
  | zero => rfl
  | succ depth ih =>
    rw [nested, nested, ih]
    rfl

theorem Grammar.type_renumber : type ⟨s.renumber f, h, wide⟩ = type ⟨s, h, wide⟩ := by
  unfold type
  simp only [nested_renumber]

theorem TypedTag.readType_renumber (text : List Char) (e : Extent) (r : Reader) :
    readType ⟨s.renumber f, h, wide⟩ text e r = readType ⟨s, h, wide⟩ text e r := by
  unfold readType
  rw [Grammar.type_renumber]

@[simp]
theorem TypedTag.read_renumber (text : String) (e : Extent) :
    read ⟨s.renumber f, h, wide⟩ text e = read ⟨s, h, wide⟩ text e := by
  unfold read
  simp only [readType_renumber]

@[simp]
theorem TypedTag.readTemplate_renumber (text : String) :
    readTemplate ⟨s.renumber f, h, wide⟩ text = readTemplate ⟨s, h, wide⟩ text := by
  unfold readTemplate
  simp only [readType_renumber]

end

/-- A type that is read from a tag, in a context and in one of the forms of tags. -/
structure TagReading where
  context : Context
  form : TypedTag.Form
  tag : Tag

namespace TagReading

def typed (r : TagReading) : TypedTag :=
  r.form.read r.context r.tag.text

def isTold (r : TagReading) : Bool :=
  match r.form with
  | .typed _ => true
  | .template => r.typed.name.isSome

def rewrite? (r : TagReading) : Option Rewrite :=
  match r.typed.spelled, r.typed.span with
  | some spelled, some span =>
    if r.isTold && Text.slice r.tag.text span.1 span.2 != spelled then some ⟨r.tag, span, spelled⟩
    else none
  | _, _ => none

end TagReading

namespace Check

def templateReadings (h : Hierarchy) (scope : Scope) : List Tag → List TagReading
  | [] => []
  | t :: ts =>
    ⟨{ scope, hierarchy := h }, .template, t⟩ :: templateReadings h (bindTemplate h scope t) ts

def visitReadings (h : Hierarchy) : Visit → List TagReading
  | .templates scope c => templateReadings h scope (templateTags c)
  | .classDocs scope c =>
    (propertyNames.flatMap c.named).map fun t => ⟨{ scope, hierarchy := h }, .typed .variable, t⟩
  | .functionDocs scope _ _ (some c) =>
    (c.named "@param").map (fun t => ⟨{ scope, hierarchy := h }, .typed .modifiers, t⟩) ++
      (c.named "@return").map fun t => ⟨{ scope, hierarchy := h }, .typed .type, t⟩
  | .variableDocs scope _ _ (some c) _ =>
    (c.named "@var").map fun t => ⟨{ scope, hierarchy := h }, .typed .variable, t⟩
  | _ => []

def readings (ts : Tokens) : List TagReading :=
  (Outline.visits (bindTemplates (hierarchy ts)) ts).flatMap (visitReadings (hierarchy ts))

end Check

def Event.rewrite? : Event → Option Rewrite
  | .style _ tag span spelled _ => some ⟨tag, span, spelled⟩
  | _ => none

theorem TypedTag.Form.spelled_of_type_eq_none {c : Context} {text : String} {form : Form}
    (h : (form.read c text).type = none) : (form.read c text).spelled = none := by
  cases form with
  | typed e =>
    simp only [Form.read, TypedTag.read, Option.map_eq_none_iff] at h ⊢
    exact h
  | template =>
    simp only [Form.read, TypedTag.readTemplate] at h ⊢
    split at h <;> rename_i hbound
    · rw [if_pos hbound]
      split at h
      · cases h
      · rfl
    · cases h

namespace Check
open Event
variable {h : Hierarchy} {scope : Scope} {t : Tag} {code : Code} {args : List String}

@[simp]
theorem rewrites_reading (text : String) (typed : TypedTag) (forDocs : Bool) :
    (reading text typed forDocs).filterMap rewrite? = [] := by
  refine List.filterMap_eq_nil_iff.mpr fun e he => ?_
  rw [List.eq_of_mem_replicate he]
  rfl

@[simp]
theorem rewrites_when (c : Bool) (place : Nat) :
    (when c (.finding code place args)).filterMap rewrite? = [] := by
  cases c <;> rfl

@[simp]
theorem rewrites_when_onTag (c : Bool) :
    (when c (onTag code t args)).filterMap rewrite? = [] :=
  rewrites_when c t.place

theorem rewrites_spelling (c : Context) (form : TypedTag.Form)
    (htold : TagReading.isTold ⟨c, form, t⟩ = true) :
    (spelling code t (form.read c t.text) args).filterMap rewrite? =
      (TagReading.rewrite? ⟨c, form, t⟩).toList := by
  unfold spelling TagReading.rewrite?
  rw [htold, TagReading.typed]
  simp only [Bool.true_and]
  cases (form.read c t.text).spelled with
  | none => rfl
  | some spelled =>
    cases (form.read c t.text).span with
    | none => rfl
    | some span =>
      simp only [when]
      split <;> rfl

theorem filter_allNamed {p : String → Bool} (hp : p "" = false) (c : DocComment) :
    c.tags.filter (fun t => p t.name) = c.allNamed.filter fun t => p t.name := by
  rw [DocComment.allNamed, List.filter_filter]
  refine List.filter_congr fun t _ => ?_
  by_cases hname : t.name = ""
  · rw [hname, hp]
    rfl
  · simp [hname]

@[simp]
theorem rewrites_onTags {α : Type} (xs : List α) (g : α → Event) (hg : ∀ x, (g x).rewrite? = none) :
    (xs.map g).filterMap rewrite? = [] :=
  List.filterMap_eq_nil_iff.mpr (List.forall_mem_map.mpr fun x _ => hg x)

theorem rewrites_misplaced (c : DocComment) (names : List String) :
    (misplaced c names).filterMap rewrite? = [] :=
  rewrites_onTags _ _ fun _ => rfl

/-- Where the type of a tag is malformed nothing is told about its spelling. -/
theorem rewrite?_of_type_eq_none {r : TagReading} (hr : r.typed.type = none) : r.rewrite? = none := by
  have hspelled : r.typed.spelled = none := TypedTag.Form.spelled_of_type_eq_none hr
  rw [TagReading.rewrite?, hspelled]

theorem rewrites_template (h : Hierarchy) (scope : Scope) (t : Tag) :
    (template h scope t).filterMap rewrite? =
      (TagReading.rewrite? ⟨{ scope, hierarchy := h }, .template, t⟩).toList := by
  generalize hr : (⟨{ scope, hierarchy := h }, .template, t⟩ : TagReading) = r
  have htyped : readTemplate h scope t = r.typed := by
    subst hr
    rfl
  have htold : r.isTold = r.typed.name.isSome := by
    subst hr
    rfl
  unfold template
  simp only [htyped, List.filterMap_append, rewrites_reading, List.nil_append]
  split
  · rename_i hname
    rw [hname] at htold
    have hnone : r.rewrite? = none := by
      unfold TagReading.rewrite?
      split
      · simp [htold]
      · rfl
    rw [hnone]
    rfl
  · rename_i htype
    rw [rewrite?_of_type_eq_none htype]
    rfl
  · rename_i hname _
    rw [hname] at htold
    subst hr
    exact rewrites_spelling _ _ htold

theorem rewrites_templates (h : Hierarchy) (scope : Scope) (tags : List Tag) :
    (templates h scope tags).filterMap rewrite? =
      (templateReadings h scope tags).filterMap TagReading.rewrite? := by
  induction tags generalizing scope with
  | nil => rfl
  | cons t tags ih =>
    rw [templates, List.filterMap_append, ih, rewrites_template, templateReadings,
      List.filterMap_cons]
    cases TagReading.rewrite? ⟨{ scope, hierarchy := h }, .template, t⟩ <;> rfl

/-- A type and its spelling, where the type is read in a form without a name of its own. -/
theorem rewrites_typed {c : Context} {e : Extent} {typed : TypedTag} {x : Event}
    (htyped : typed = TypedTag.read c t.text e) (hx : x.rewrite? = none) :
    (if typed.type.isNone then [x] else spelling code t typed args).filterMap rewrite? =
      (TagReading.rewrite? ⟨c, .typed e, t⟩).toList := by
  subst htyped
  split
  · rename_i htype
    rw [rewrite?_of_type_eq_none (r := ⟨c, .typed e, t⟩) (Option.isNone_iff_eq_none.mp htype)]
    simp [hx]
  · exact rewrites_spelling c (.typed e) rfl

/-- The same if the type is checked as well. -/
theorem rewrites_checked {c : Context} {e : Extent} {typed : TypedTag} {x y : Event}
    (htyped : typed = TypedTag.read c t.text e) (hx : x.rewrite? = none) (hy : y.rewrite? = none)
    (differs : Bool) : (if typed.type.isNone then [x]
      else when differs y ++ spelling code t typed args).filterMap rewrite? =
        (TagReading.rewrite? ⟨c, .typed e, t⟩).toList := by
  have hwhen : (when differs y).filterMap rewrite? = [] := by
    cases differs <;> simp [when, hy]
  rw [← (rewrites_typed htyped hx : _ = _)]
  split
  · rfl
  · rw [List.filterMap_append, hwhen, List.nil_append]

theorem rewrites_property (h : Hierarchy) (scope : Scope) (t : Tag) :
    (property h scope t).filterMap rewrite? =
      (TagReading.rewrite? ⟨{ scope, hierarchy := h }, .typed .variable, t⟩).toList := by
  simp only [property, List.filterMap_append, rewrites_reading, List.nil_append]
  rw [rewrites_when_onTag, List.append_nil]
  exact rewrites_typed rfl rfl

theorem rewrites_variableTag (h : Hierarchy) (scope : Scope) (names : List String)
    (written : Option DocType) (t : Tag) : (variableTag h scope names written t).filterMap rewrite? =
      (TagReading.rewrite? ⟨{ scope, hierarchy := h }, .typed .variable, t⟩).toList := by
  simp only [variableTag, List.filterMap_append, rewrites_reading, List.nil_append]
  rw [rewrites_when_onTag, List.append_nil]
  exact rewrites_checked rfl rfl rfl _

theorem rewrites_returnTag (h : Hierarchy) (scope : Scope) (written : Option DocType) (t : Tag) :
    (returnTag h scope written t).filterMap rewrite? =
      (TagReading.rewrite? ⟨{ scope, hierarchy := h }, .typed .type, t⟩).toList := by
  simp only [returnTag, List.filterMap_append, rewrites_reading, List.nil_append]
  exact rewrites_checked rfl rfl rfl _

/-- A spelling is told for each of some tags if it is not the recommended one. -/
theorem rewrites_flatMap {α : Type} (xs : List α) {g : α → List Event} {r : α → TagReading}
    (hg : ∀ x ∈ xs, (g x).filterMap rewrite? = (r x).rewrite?.toList) :
    (xs.flatMap g).filterMap rewrite? = (xs.map r).filterMap TagReading.rewrite? := by
  induction xs with
  | nil => rfl
  | cons x xs ih =>
    obtain ⟨hx, hxs⟩ := List.forall_mem_cons.mp hg
    rw [List.flatMap_cons, List.filterMap_append, hx, ih hxs, List.map_cons, List.filterMap_cons]
    cases (r x).rewrite? <;> rfl

theorem rewrites_native (h : Hierarchy) (scope : Scope) (text : Option String) :
    (native h scope text).2.filterMap rewrite? = [] := by
  unfold native
  split
  · rfl
  · rfl
  · exact rewrites_reading _ _ _

theorem rewrites_paramTag (h : Hierarchy) (scope : Scope) {tags : List Tag} {p : ParamTag}
    (hp : p ∈ paramTags h scope tags) : (paramTag p).filterMap rewrite? =
      (TagReading.rewrite? ⟨{ scope, hierarchy := h }, .typed .modifiers, p.tag⟩).toList := by
  obtain ⟨-, hread⟩ := typed_of_mem_paramTags h scope hp
  simp only [paramTag, List.filterMap_append, rewrites_reading, List.nil_append]
  rw [rewrites_when_onTag, List.append_nil]
  exact rewrites_typed hread rfl

theorem map_tag_paramTags (h : Hierarchy) (scope : Scope) (tags : List Tag) :
    (paramTags h scope tags).map (·.tag) = tags := by
  rw [paramTags, List.map_map]
  exact List.zipIdx_map_fst 0 tags

theorem rewrites_paramPair (h : Hierarchy) (scope : Scope) (positional : Bool) (p : ParamTag)
    (q : Parameter) : (paramPair h scope positional p q).filterMap rewrite? = [] := by
  simp only [paramPair, List.filterMap_append, rewrites_when_onTag, rewrites_reading,
    List.append_nil]

theorem rewrites_params (h : Hierarchy) (scope : Scope) (place : Nat) (listed : List Parameter)
    (tags : List Tag) : (params h scope place listed tags).filterMap rewrite? =
      (tags.map fun t => ⟨{ scope, hierarchy := h }, .typed .modifiers, t⟩).filterMap
        TagReading.rewrite? := by
  have htags := rewrites_flatMap (paramTags h scope tags) (g := paramTag)
    (r := fun p => ⟨{ scope, hierarchy := h }, .typed .modifiers, p.tag⟩)
    fun p hp => rewrites_paramTag h scope hp
  have hmap : (paramTags h scope tags).map
      (fun p => (⟨{ scope, hierarchy := h }, .typed .modifiers, p.tag⟩ : TagReading)) =
      tags.map fun t => ⟨{ scope, hierarchy := h }, .typed .modifiers, t⟩ := by
    conv_rhs => rw [← map_tag_paramTags h scope tags, List.map_map]
    rfl
  rw [hmap] at htags
  simp only [params, List.filterMap_append, htags]
  split
  · simp
  · rw [List.filterMap_append, rewrites_when, List.nil_append]
    have hpairs : ((paired listed (paramTags h scope tags)).flatMap fun x =>
        paramPair h scope (decide ((paramTags h scope tags).length = listed.length)) x.1
          x.2).filterMap rewrite? = [] := by
      rw [List.filterMap_flatMap]
      exact List.flatMap_eq_nil_iff.mpr fun x _ => rewrites_paramPair h scope _ x.1 x.2
    rw [hpairs, List.append_nil]

theorem rewrites_missingParams (h : Hierarchy) (scope : Scope) (place : Nat)
    (listed : List Parameter) (tags : List Tag) :
    (missingParams h scope place listed tags).filterMap rewrite? = [] := by
  simp only [missingParams, List.filterMap_append]
  rw [rewrites_onTags _ _ fun _ => rfl, List.filterMap_flatMap]
  simp

/-- What is told about spelling is told about the types read. -/
theorem rewrites_visitWithLog (h : Hierarchy) (ts : Tokens) (v : Visit) :
    (visitWithLog h ts v).filterMap rewrite? =
      (visitReadings h v).filterMap TagReading.rewrite? := by
  rw [visitWithLog, List.filterMap_append, rewrites_onTags _ _ fun _ => rfl, List.append_nil]
  cases v with
  | nameSpace | imported | classLike | function | declared | comment | fault => rfl
  | templates scope c => exact rewrites_templates h scope _
  | classDocs scope c =>
    rw [visit, classLike, List.filterMap_append, rewrites_misplaced, List.append_nil]
    exact rewrites_flatMap _ fun t _ => rewrites_property h scope t
  | functionDocs scope place name c =>
    cases c with
    | none => exact rewrites_when _ _
    | some c =>
      have hreturns (written : Option DocType) := rewrites_flatMap (c.named "@return")
        fun t _ => rewrites_returnTag h scope written t
      simp only [visit, function, List.filterMap_append, rewrites_params, rewrites_native,
        rewrites_misplaced, hreturns, rewrites_when, onTag]
      rw [rewrites_onTags _ _ fun _ => rfl, visitReadings, List.filterMap_append]
      split
      · simp [rewrites_missingParams]
      · simp
  | variableDocs scope place names c written =>
    cases c with
    | none => rfl
    | some c =>
      have htags (native : Option DocType) := rewrites_flatMap (c.named "@var")
        fun t _ => rewrites_variableTag h scope names native t
      simp only [visit, variableDocs, List.filterMap_append, rewrites_native,
        rewrites_misplaced, htags, rewrites_when, onTag]
      rw [rewrites_onTags _ _ fun _ => rfl, visitReadings]
      simp

/-- All that is told about spelling is told about the types read. -/
theorem rewrites_events (ts : Tokens) :
    (events ts).filterMap rewrite? = (readings ts).filterMap TagReading.rewrite? := by
  simp only [events, readings, List.filterMap_flatMap, rewrites_visitWithLog]

theorem tag_mem_of_mem_templateReadings {h : Hierarchy} {scope : Scope} {tags : List Tag}
    {r : TagReading} (hr : r ∈ templateReadings h scope tags) : r.tag ∈ tags := by
  induction tags generalizing scope with
  | nil => cases hr
  | cons t tags ih =>
    rcases List.mem_cons.mp hr with rfl | hr
    · exact List.mem_cons_self
    · exact List.mem_cons_of_mem t (ih hr)

theorem mem_allNamed_of_named {c : DocComment} {name : String} (hname : name ≠ "") {t : Tag}
    (ht : t ∈ c.named name) : t ∈ c.allNamed := by
  obtain ⟨hmem, heq⟩ := List.mem_filter.mp ht
  refine List.mem_filter.mpr ⟨hmem, ?_⟩
  rw [beq_iff_eq.mp heq]
  simpa using hname

/-- The tags that are read are tags of the comment. -/
theorem mem_allNamed_of_mem_visitReadings {h : Hierarchy} {v : Visit} {r : TagReading}
    (hr : r ∈ visitReadings h v) : ∃ c, v.comment? = some c ∧ r.tag ∈ c.allNamed := by
  cases v with
  | nameSpace | imported | classLike | function | declared | comment | fault => cases hr
  | templates scope c =>
    refine ⟨c, rfl, ?_⟩
    have htag := tag_mem_of_mem_templateReadings hr
    rw [templateTags, filter_allNamed (by decide)] at htag
    exact (List.mem_filter.mp htag).1
  | classDocs scope c =>
    refine ⟨c, rfl, ?_⟩
    obtain ⟨t, ht, rfl⟩ := List.mem_map.mp hr
    obtain ⟨name, hname, ht⟩ := List.mem_flatMap.mp ht
    refine mem_allNamed_of_named ?_ ht
    rintro rfl
    exact absurd hname (by decide)
  | functionDocs scope place name c =>
    cases c with
    | none => cases hr
    | some c =>
      refine ⟨c, rfl, ?_⟩
      rcases List.mem_append.mp hr with hr | hr <;> obtain ⟨t, ht, rfl⟩ := List.mem_map.mp hr <;>
        exact mem_allNamed_of_named (by decide) ht
  | variableDocs scope place names c written =>
    cases c with
    | none => cases hr
    | some c =>
      refine ⟨c, rfl, ?_⟩
      obtain ⟨t, ht, rfl⟩ := List.mem_map.mp hr
      exact mem_allNamed_of_named (by decide) ht

/-- The tags that are read are tags of the file. -/
theorem isNamedIn_of_mem_readings {source : String} {r : TagReading}
    (hr : r ∈ readings (tokenize source)) : r.tag.IsNamedIn (tokenize source) := by
  obtain ⟨v, hv, hin⟩ := List.mem_flatMap.mp hr
  obtain ⟨c, hc, htag⟩ := mem_allNamed_of_mem_visitReadings hin
  obtain ⟨opener, hread⟩ := Outline.ofFile_of_mem_walk (tokenize_marked source) hv c hc
  exact ⟨opener, c, hread, htag⟩

end Check

end PhpDoc
