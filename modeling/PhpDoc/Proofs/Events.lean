import PhpDoc.Proofs.RestyledTags
import PhpDoc.Proofs.TagLines
import PhpDoc.Proofs.Walks
/-!
What the checks come up with. The arguments of a finding fit its message; only a spelling is about
style, and it is that of a type read from a tag of the file.
-/
namespace PhpDoc

namespace Text

def holes : List Char → Option Nat
  | [] => some 0
  | '%' :: 's' :: cs => (holes cs).map (· + 1)
  | '%' :: '%' :: cs => holes cs
  | '%' :: _ => none
  | _ :: cs => holes cs

def fits (template : String) (args : List String) : Bool :=
  args.isEmpty || holes template.toList == some args.length

end Text

theorem Code.fits_one {code : Code} (h : Text.holes code.template.toList = some 1) (a : String) :
    Text.fits code.template [a] = true := by
  simp [Text.fits, h]

def Code.isPlain (c : Code) : Bool :=
  !c.isStyle && c != .internalFix

namespace Event
open TypedTag (Form)

def Proper (Q : Tag → Prop) : Event → Prop
  | .finding code _ args => code.isPlain = true ∧ Text.fits code.template args = true
  | .style code tag span spelled args =>
    code.isStyle = true ∧ Text.fits code.template args = true ∧ Q tag ∧
      ∃ c f, (Form.read c tag.text f).spelled = some spelled ∧
        (Form.read c tag.text f).span = some span
  | .note _ _ => True

variable {Q : Tag → Prop} {t : Tag} {code : Code} {args : List String}

theorem proper_onTag (hcode : code.isPlain = true) (h : Text.fits code.template args = true) :
    (onTag code t args).Proper Q :=
  ⟨hcode, h⟩

theorem proper_when {e : Event} (c : Bool) (h : e.Proper Q) : ∀ x ∈ when c e, x.Proper Q := by
  cases c <;> simp [when, h]

theorem proper_reading (text : String) (typed : TypedTag) (forDocs : Bool) :
    ∀ x ∈ reading text typed forDocs, x.Proper Q := by
  intro x hx
  rw [List.eq_of_mem_replicate hx]
  trivial

theorem proper_spelling {c : Context} (f : Form) (hcode : code.isStyle = true)
    (h : Text.fits code.template args = true) (ht : Q t) :
    ∀ x ∈ spelling code t (f.read c t.text) args, x.Proper Q := by
  unfold spelling
  split
  · rename_i spelled span hspelled hspan
    exact proper_when _ ⟨hcode, h, ht, c, f, hspelled, hspan⟩
  · simp

theorem proper_misplaced (c : DocComment) (names : List String) :
    ∀ x ∈ misplaced c names, x.Proper Q := by
  intro x hx
  obtain ⟨t, -, rfl⟩ := List.mem_map.mp hx
  exact ⟨rfl, Code.fits_one rfl t.name⟩

end Event

namespace Check
open Event
open TypedTag (Form)
variable {Q : Tag → Prop} (h : Hierarchy) (scope : Scope)

theorem proper_template {t : Tag} (ht : Q t) : ∀ e ∈ template h scope t, e.Proper Q := by
  refine List.forall_mem_append.mpr ⟨proper_reading _ _ _, ?_⟩
  split
  · exact List.forall_mem_singleton.mpr (proper_onTag rfl rfl)
  · exact List.forall_mem_singleton.mpr (proper_onTag rfl rfl)
  · exact proper_spelling .template rfl rfl ht

theorem proper_templates {tags : List Tag} (ht : ∀ t ∈ tags, Q t) :
    ∀ e ∈ templates h scope tags, e.Proper Q := by
  induction tags generalizing scope with
  | nil => simp [templates]
  | cons t tags ih =>
    obtain ⟨hhead, htail⟩ := List.forall_mem_cons.mp ht
    exact List.forall_mem_append.mpr ⟨proper_template h scope hhead, ih _ htail⟩

theorem proper_property {t : Tag} (ht : Q t) : ∀ e ∈ property h scope t, e.Proper Q := by
  refine List.forall_mem_append.mpr ⟨List.forall_mem_append.mpr ⟨proper_reading _ _ _, ?_⟩,
    proper_when _ (proper_onTag rfl rfl)⟩
  split
  · exact List.forall_mem_singleton.mpr (proper_onTag rfl rfl)
  · exact proper_spelling (.typed .variable) rfl rfl ht

theorem proper_classLike {c : DocComment} (hc : ∀ t ∈ c.tags, Q t) :
    ∀ e ∈ classLike h scope c, e.Proper Q := by
  refine List.forall_mem_append.mpr ⟨List.forall_mem_flatMap.mpr fun t ht => ?_,
    proper_misplaced _ _⟩
  obtain ⟨name, -, hmem⟩ := List.mem_flatMap.mp ht
  exact proper_property h scope (hc t (List.mem_filter.mp hmem).1)

theorem proper_native (text : Option String) : ∀ e ∈ (native h scope text).2, e.Proper Q := by
  unfold native
  split
  · simp
  · simp
  · exact proper_reading _ _ _

theorem proper_variableTag (names : List String) (written : Option DocType) {t : Tag}
    (ht : Q t) : ∀ e ∈ variableTag h scope names written t, e.Proper Q := by
  refine List.forall_mem_append.mpr ⟨List.forall_mem_append.mpr ⟨proper_reading _ _ _, ?_⟩,
    proper_when _ (proper_onTag rfl rfl)⟩
  split
  · exact List.forall_mem_singleton.mpr (proper_onTag rfl rfl)
  · exact List.forall_mem_append.mpr ⟨proper_when _ (proper_onTag rfl rfl),
      proper_spelling (.typed .variable) rfl rfl ht⟩

theorem proper_second {code : Code} (hcode : code.isPlain = true) (tags : List Tag) :
    ∀ e ∈ tags[1]?.toList.map fun t => onTag code t, e.Proper Q := by
  cases tags[1]? with
  | none => simp
  | some t =>
    have ht : (onTag code t).Proper Q := proper_onTag hcode rfl
    simpa using ht

theorem proper_variableDocs (place : Nat) (names : List String) {comment : Option DocComment}
    (written : Option String) (hc : ∀ c, comment = some c → ∀ t ∈ c.tags, Q t) :
    ∀ e ∈ variableDocs h scope place names comment written, e.Proper Q := by
  cases comment with
  | none => exact List.forall_mem_singleton.mpr ⟨rfl, rfl⟩
  | some c =>
    simp only [variableDocs, List.forall_mem_append]
    refine ⟨⟨⟨⟨proper_when _ ⟨rfl, rfl⟩, proper_second rfl _⟩, proper_native h scope written⟩, ?_⟩,
      proper_misplaced _ _⟩
    exact List.forall_mem_flatMap.mpr fun t ht =>
      proper_variableTag h scope names _ (hc c rfl t (List.mem_filter.mp ht).1)

/-- What a parameter tag says is read from it. -/
theorem typed_of_mem_paramTags {tags : List Tag} {p : ParamTag} (hp : p ∈ paramTags h scope tags) :
    p.tag ∈ tags ∧
      p.typed = Form.read { scope, hierarchy := h } p.tag.text (.typed .modifiers) := by
  obtain ⟨⟨t, i⟩, hmem, rfl⟩ := List.mem_map.mp hp
  exact ⟨List.fst_mem_of_mem_zipIdx hmem, rfl⟩

theorem proper_paramTag {tags : List Tag} (ht : ∀ t ∈ tags, Q t) {p : ParamTag}
    (hp : p ∈ paramTags h scope tags) : ∀ e ∈ paramTag p, e.Proper Q := by
  obtain ⟨hmem, htyped⟩ := typed_of_mem_paramTags h scope hp
  refine List.forall_mem_append.mpr ⟨List.forall_mem_append.mpr ⟨proper_reading _ _ _, ?_⟩,
    proper_when _ (proper_onTag rfl (Code.fits_one rfl _))⟩
  split
  · exact List.forall_mem_singleton.mpr (proper_onTag rfl (Code.fits_one rfl _))
  · rw [htyped]
    exact proper_spelling _ rfl (Code.fits_one rfl _) (ht _ hmem)

theorem proper_paramPair (positional : Bool) (p : ParamTag) (q : Parameter) :
    ∀ e ∈ paramPair h scope positional p q, e.Proper Q := by
  have hwhen : ∀ (b : Bool) (code : Code), code.isPlain = true →
      Text.holes code.template.toList = some 1 →
      ∀ e ∈ Event.when b (.onTag code p.tag p.args), e.Proper Q :=
    fun b code hcode hholes => proper_when b (proper_onTag hcode (Code.fits_one hholes _))
  simp only [paramPair, List.forall_mem_append]
  exact ⟨⟨⟨hwhen _ _ rfl rfl, proper_reading _ _ _⟩, hwhen _ _ rfl rfl⟩, hwhen _ _ rfl rfl⟩

theorem proper_params (place : Nat) (listed : List Parameter) {tags : List Tag}
    (ht : ∀ t ∈ tags, Q t) : ∀ e ∈ params h scope place listed tags, e.Proper Q := by
  simp only [params, List.forall_mem_append]
  refine ⟨List.forall_mem_flatMap.mpr fun p hp => proper_paramTag h scope ht hp, ?_⟩
  split
  · simp
  · exact List.forall_mem_append.mpr ⟨proper_when _ ⟨rfl, rfl⟩,
      List.forall_mem_flatMap.mpr fun p _ => proper_paramPair h scope _ p.1 p.2⟩

theorem proper_missingParams (place : Nat) (listed : List Parameter) (tags : List Tag) :
    ∀ e ∈ missingParams h scope place listed tags, e.Proper Q := by
  simp only [missingParams, List.forall_mem_append]
  refine ⟨List.forall_mem_flatMap.mpr fun p _ => proper_reading _ _ _, ?_⟩
  rintro e he
  obtain ⟨q, -, rfl⟩ := List.mem_map.mp he
  exact ⟨rfl, Code.fits_one rfl q.name⟩

theorem proper_returnTag (written : Option DocType) {t : Tag} (ht : Q t) :
    ∀ e ∈ returnTag h scope written t, e.Proper Q := by
  refine List.forall_mem_append.mpr ⟨proper_reading _ _ _, ?_⟩
  split
  · exact List.forall_mem_singleton.mpr (proper_onTag rfl rfl)
  · exact List.forall_mem_append.mpr ⟨proper_when _ (proper_onTag rfl rfl),
      proper_spelling (.typed .type) rfl rfl ht⟩

theorem proper_function (file : Tokens) (place : Nat) (name : Option String)
    {comment : Option DocComment} (hc : ∀ c, comment = some c → ∀ t ∈ c.tags, Q t) :
    ∀ e ∈ function h file scope place name comment, e.Proper Q := by
  cases comment with
  | none => exact proper_when _ ⟨rfl, rfl⟩
  | some c =>
    have hnamed : ∀ n, ∀ t ∈ c.named n, Q t :=
      fun n t ht => hc c rfl t (List.mem_filter.mp ht).1
    simp only [function, List.forall_mem_append]
    refine ⟨⟨⟨⟨⟨⟨proper_params h scope place _ (hnamed _), ?_⟩, proper_native h scope _⟩,
      proper_second rfl _⟩, ?_⟩, proper_when _ ⟨rfl, rfl⟩⟩, proper_misplaced _ _⟩
    · split
      · exact proper_missingParams h scope place _ _
      · simp
    · exact List.forall_mem_flatMap.mpr fun t ht => proper_returnTag h scope _ (hnamed _ t ht)

/-- All that is said about something met with a comment is proper if its tags have the property. -/
theorem proper_visitWithLog (ts : Tokens) {v : Visit}
    (hv : ∀ c, v.comment? = some c → ∀ t ∈ c.tags, Q t) :
    ∀ e ∈ visitWithLog h ts v, e.Proper Q := by
  refine List.forall_mem_append.mpr ⟨?_, by simp [Event.Proper]⟩
  cases v with
  | nameSpace | imported | function | declared | classLike => simp [visit]
  | comment c => simp [visit, Event.Proper]
  | templates scope c =>
    exact proper_templates h scope fun t ht => hv c rfl t (List.mem_filter.mp ht).1
  | classDocs scope c => exact proper_classLike h scope (hv c rfl)
  | functionDocs scope place name c => exact proper_function h scope ts place name hv
  | variableDocs scope place names c written =>
    exact proper_variableDocs h scope place names written hv
  | fault e => exact List.forall_mem_singleton.mpr ⟨rfl, Code.fits_one rfl e.message⟩

end Check

namespace Outline

/-- The comments met on a walk over a file are comments of the file. -/
theorem ofFile_of_mem_walk {b : Binder} {ts : Tokens} (hm : ts.Marked) {bound i stop : Nat}
    {scope : Scope} {v : Visit} (hv : v ∈ walk b ts bound scope i stop) :
    OfFile ts v.comment? := by
  induction bound generalizing scope i stop with
  | zero => cases hv
  | succ bound ih =>
    have hitems : v ∈ (outcome b ts scope i).items.flatMap (Item.met (walk b ts bound)) →
        OfFile ts v.comment? := by
      intro hmem
      obtain ⟨item, hitem, hin⟩ := List.mem_flatMap.mp hmem
      cases (outcome_sound hm).items item hitem with
      | visit comment =>
        rw [List.mem_singleton.mp hin]
        exact comment
      | region => exact ih hin
    rw [walk] at hv
    split at hv
    · cases hv
    · simp only at hv
      split at hv
      · rcases List.mem_append.mp hv with hv | hv
        · exact hitems hv
        · exact ih hv
      · rcases List.mem_append.mp hv with hv | hv
        · exact hitems hv
        · rcases List.mem_cons.mp hv with rfl | hv
          · exact fun _ h => by cases h
          · exact ih hv

end Outline

/-- All that there is to say about a file is about tags of its comments, whose lines stand one below
the other. -/
theorem Check.proper_events (source : String) : ∀ e ∈ Check.events (tokenize source),
    e.Proper fun t => t.StandsIn (tokenize source) ∧ t.LaidOut (tokenize source) := by
  intro e he
  obtain ⟨v, hv, hin⟩ := List.mem_flatMap.mp he
  refine proper_visitWithLog _ (tokenize source) (fun c hc t ht => ?_) e hin
  obtain ⟨opener, hread⟩ := Outline.ofFile_of_mem_walk (tokenize_marked source) hv c hc
  exact ⟨DocComment.read_standsIn hread t ht, DocComment.read_laidOut hread t ht⟩

end PhpDoc
