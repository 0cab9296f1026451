import PhpDoc.Proofs.TagReadings
/-!
What is found in a file whose tags say what those of another one say. If nothing is left to respell
in them, the plain findings are the same, at the places that correspond, and none is about spelling.
-/
namespace PhpDoc

structure TagReading.Keeps (r : TagReading) (t' : Tag) : Prop where
  said : (r.form.read r.context t'.text).said = r.typed.said
  done : r.isTold = true → ∀ code args,
    Event.spelling code t' (r.form.read r.context t'.text) args = []

namespace TagReading.Keeps
variable {r : TagReading} {t' : Tag}

theorem type (h : r.Keeps t') : (r.form.read r.context t'.text).type = r.typed.type := by
  have hsaid := congrArg TypedTag.type h.said
  exact hsaid

theorem name (h : r.Keeps t') : (r.form.read r.context t'.text).name = r.typed.name := by
  have hsaid := congrArg TypedTag.name h.said
  exact hsaid

theorem modifiers (h : r.Keeps t') :
    (r.form.read r.context t'.text).modifiers = r.typed.modifiers := by
  have hsaid := congrArg TypedTag.modifiers h.said
  exact hsaid

end TagReading.Keeps

namespace Event

def plain? : Event → Option (Code × Nat × List String)
  | .finding code place args => some (code, place, args)
  | _ => none

def isStyle : Event → Bool
  | .style .. => true
  | _ => false

/-- Events in another file, in which the tokens have other numbers: the same plain findings and nothing
about spelling. -/
structure Settle (f : Nat → Nat) (es es' : List Event) : Prop where
  plain : es'.filterMap plain? = (es.filterMap plain?).map fun x => (x.1, f x.2.1, x.2.2)
  keeps : ∀ x ∈ es.filterMap plain?, KeepsPlace f x.2.1
  styles : ∀ e ∈ es', e.isStyle = false

namespace Settle
variable {f : Nat → Nat} {es es' fs fs' : List Event} {α β : Type}

theorem nil : Settle f [] [] :=
  ⟨rfl, by simp, by simp⟩

theorem append (h : Settle f es es') (h' : Settle f fs fs') : Settle f (es ++ fs) (es' ++ fs') where
  plain := by simp only [List.filterMap_append, List.map_append, h.plain, h'.plain]
  keeps := by
    rw [List.filterMap_append]
    exact List.forall_mem_append.mpr ⟨h.keeps, h'.keeps⟩
  styles := List.forall_mem_append.mpr ⟨h.styles, h'.styles⟩

theorem flatMap {R : α → β → Prop} {xs : List α} {ys : List β} {g : α → List Event}
    {g' : β → List Event} (h : List.Forall₂ R xs ys)
    (hg : ∀ x ∈ xs, ∀ y, R x y → Settle f (g x) (g' y)) :
    Settle f (xs.flatMap g) (ys.flatMap g') := by
  induction h with
  | nil => exact .nil
  | cons hxy _ ih =>
    obtain ⟨hx, hxs⟩ := List.forall_mem_cons.mp hg
    exact (hx _ hxy).append (ih hxs)

theorem map {R : α → β → Prop} {xs : List α} {ys : List β} {g : α → Event} {g' : β → Event}
    (h : List.Forall₂ R xs ys) (hg : ∀ x ∈ xs, ∀ y, R x y → Settle f [g x] [g' y]) :
    Settle f (xs.map g) (ys.map g') := by
  induction h with
  | nil => exact .nil
  | cons hxy _ ih =>
    obtain ⟨hx, hxs⟩ := List.forall_mem_cons.mp hg
    exact (hx _ hxy).append (ih hxs)

theorem finding {code : Code} {place place' : Nat} {args : List String} (hplace : place' = f place)
    (hkeeps : KeepsPlace f place) : Settle f [.finding code place args] [.finding code place' args] :=
  ⟨by rw [hplace]; rfl, by simpa [plain?] using hkeeps, by simp [isStyle]⟩

/-- Lines of the log are not findings, and spellings are no plain ones. -/
theorem of_none (h : ∀ e ∈ es, e.plain? = none) (h' : ∀ e ∈ es', e.plain? = none ∧ e.isStyle = false) :
    Settle f es es' := by
  have hnone : es.filterMap plain? = [] := List.filterMap_eq_nil_iff.mpr h
  have hnone' : es'.filterMap plain? = [] := List.filterMap_eq_nil_iff.mpr fun e he => (h' e he).1
  exact ⟨by rw [hnone, hnone']; rfl, by simp [hnone], fun e he => (h' e he).2⟩

theorem reading (text text' : String) (typed typed' : TypedTag) (forDocs : Bool) :
    Settle f (Event.reading text typed forDocs) (Event.reading text' typed' forDocs) := by
  refine of_none (fun e he => ?_) fun e he => ?_
  · rw [List.eq_of_mem_replicate he]
    rfl
  · rw [List.eq_of_mem_replicate he]
    exact ⟨rfl, rfl⟩

theorem ite {c c' : Bool} (hc : c' = c) (h : c = true → Settle f es es')
    (h' : c = false → Settle f fs fs') :
    Settle f (if c then es else fs) (if c' then es' else fs') := by
  subst hc
  cases c' with
  | false => exact h' rfl
  | true => exact h rfl

theorem when {c c' : Bool} {e e' : Event} (hc : c' = c) (h : Settle f [e] [e']) :
    Settle f (Event.when c e) (Event.when c' e') :=
  ite hc (fun _ => h) fun _ => .nil

end Settle

theorem plain?_of_mem_spelling {code : Code} {t : Tag} {typed : TypedTag} {args : List String} :
    ∀ e ∈ spelling code t typed args, e.plain? = none := by
  intro e he
  unfold spelling at he
  split at he
  · rw [when] at he
    split at he
    · rw [List.mem_singleton.mp he]
      rfl
    · cases he
  · cases he

end Event

structure Tag.Moves (f : Nat → Nat) (t t' : Tag) : Prop where
  name : t'.name = t.name
  place : t'.place = f t.place
  keeps : KeepsPlace f t.place

namespace Check
open Event
variable {f : Nat → Nat} {h : Hierarchy} {s : Scope} {t t' : Tag} {r : TagReading} {code : Code}
  {args : List String}

theorem settle_onTag (ht : t.Moves f t') : Settle f [onTag code t args] [onTag code t' args] :=
  .finding ht.place ht.keeps

theorem settle_spelling {c : Context} {form : TypedTag.Form} (hk : TagReading.Keeps ⟨c, form, t⟩ t')
    (htold : TagReading.isTold ⟨c, form, t⟩ = true) :
    Settle f (spelling code t (form.read c t.text) args)
      (spelling code t' (form.read c t'.text) args) := by
  have hnone : spelling code t' (form.read c t'.text) args = [] := hk.done htold code args
  rw [hnone]
  exact .of_none plain?_of_mem_spelling (by simp)

theorem template_settles (hk : TagReading.Keeps ⟨{ scope := s, hierarchy := h }, .template, t⟩ t')
    (ht : t.Moves f t') : Settle f (template h s t) (template h (s.renumber f) t') := by
  have hname : (readTemplate h s t').name = (readTemplate h s t).name := hk.name
  have htype : (readTemplate h s t').type = (readTemplate h s t).type := hk.type
  have hread : readTemplate h (s.renumber f) t' = readTemplate h s t' :=
    TypedTag.readTemplate_renumber f s h false t'.text
  unfold template
  simp only [hread]
  refine .append (.reading _ _ _ _ _) ?_
  rw [hname, htype]
  split
  · exact settle_onTag ht
  · exact settle_onTag ht
  · rename_i hsome _
    exact settle_spelling hk (Option.isSome_iff_exists.mpr ⟨_, hsome⟩)

theorem bindTemplate_renumber
    (hk : TagReading.Keeps ⟨{ scope := s, hierarchy := h }, .template, t⟩ t') :
    bindTemplate h (s.renumber f) t' = (bindTemplate h s t).renumber f := by
  have hname : (readTemplate h s t').name = (readTemplate h s t).name := hk.name
  have htype : (readTemplate h s t').type = (readTemplate h s t).type := hk.type
  have hread : readTemplate h (s.renumber f) t' = readTemplate h s t' :=
    TypedTag.readTemplate_renumber f s h false t'.text
  unfold bindTemplate
  simp only [hread, hname, htype]
  split <;> rfl

variable {R : Tag → Tag → Prop} (hR : ∀ t t', R t t' → t.Moves f t') {tags tags' : List Tag}
  {c c' : DocComment}
include hR

theorem templates_settles (htags : List.Forall₂ R tags tags')
    (hk : ∀ r ∈ templateReadings h s tags, ∀ t', R r.tag t' → r.Keeps t') :
    Settle f (templates h s tags) (templates h (s.renumber f) tags') := by
  induction htags generalizing s with
  | nil => exact .nil
  | @cons t t' tags tags' ht _ ih =>
    obtain ⟨hfirst, hrest⟩ := List.forall_mem_cons.mp hk
    have hkeeps := hfirst t' ht
    rw [templates, templates, bindTemplate_renumber hkeeps]
    exact (template_settles hkeeps (hR _ _ ht)).append (ih hrest)

omit hR in
theorem foldl_bindTemplate_renumber (htags : List.Forall₂ R tags tags')
    (hk : ∀ r ∈ templateReadings h s tags, ∀ t', R r.tag t' → r.Keeps t') :
    tags'.foldl (bindTemplate h) (s.renumber f) = (tags.foldl (bindTemplate h) s).renumber f := by
  induction htags generalizing s with
  | nil => rfl
  | @cons t t' tags tags' ht _ ih =>
    obtain ⟨hfirst, hrest⟩ := List.forall_mem_cons.mp hk
    rw [List.foldl_cons, List.foldl_cons, bindTemplate_renumber (hfirst t' ht)]
    exact ih hrest

theorem filter_becomes {p : String → Bool} (hp : p "" = false)
    (hc : List.Forall₂ R c.allNamed c'.allNamed) : List.Forall₂ R (c.tags.filter fun t => p t.name)
      (c'.tags.filter fun t => p t.name) := by
  rw [filter_allNamed hp, filter_allNamed hp]
  refine List.rel_filter (fun t t' ht => ?_) hc
  simp only [(hR t t' ht).name]

theorem templateTags_becomes (hc : List.Forall₂ R c.allNamed c'.allNamed) :
    List.Forall₂ R (templateTags c) (templateTags c') :=
  filter_becomes hR (p := templateNames.contains) (by decide) hc

theorem named_becomes (name : String) (hname : name ≠ "")
    (hc : List.Forall₂ R c.allNamed c'.allNamed) : List.Forall₂ R (c.named name) (c'.named name) :=
  filter_becomes hR (p := fun n => n == name) (by simpa using Ne.symm hname) hc

/-- Templates are bound alike. -/
theorem bindTemplates_renumber (hc : List.Forall₂ R c.allNamed c'.allNamed)
    (hk : ∀ r ∈ templateReadings h s (templateTags c), ∀ t', R r.tag t' → r.Keeps t') :
    bindTemplates h (s.renumber f) c' = bindTemplates h s c := by
  rw [bindTemplates, foldl_bindTemplate_renumber (templateTags_becomes hR hc) hk]
  rfl

theorem misplaced_settles {names : List String} (hc : List.Forall₂ R c.allNamed c'.allNamed) :
    Settle f (misplaced c names) (misplaced c' names) := by
  have hfilter : List.Forall₂ R (c.allNamed.filter fun t => names.contains t.name)
      (c'.allNamed.filter fun t => names.contains t.name) := by
    refine List.rel_filter (fun t t' ht => ?_) hc
    simp only [(hR t t' ht).name]
  refine .map hfilter fun t _ t' ht => ?_
  rw [(hR t t' ht).name]
  exact settle_onTag (hR t t' ht)

omit hR in
theorem property_settles
    (hk : TagReading.Keeps ⟨{ scope := s, hierarchy := h }, .typed .variable, t⟩ t')
    (ht : t.Moves f t') : Settle f (property h s t) (property h (s.renumber f) t') := by
  have hname : (TypedTag.read { scope := s, hierarchy := h } t'.text .variable).name =
      (TypedTag.read { scope := s, hierarchy := h } t.text .variable).name := hk.name
  have htype : (TypedTag.read { scope := s, hierarchy := h } t'.text .variable).type =
      (TypedTag.read { scope := s, hierarchy := h } t.text .variable).type := hk.type
  unfold property
  simp only [TypedTag.read_renumber]
  refine ((Settle.reading _ _ _ _ _).append (.ite (by rw [htype]) (fun _ => settle_onTag ht)
    fun _ => settle_spelling hk rfl)).append (.when (by rw [hname]) (settle_onTag ht))

theorem named_flatMap_becomes {names : List String} (hnames : ∀ name ∈ names, name ≠ "")
    (hc : List.Forall₂ R c.allNamed c'.allNamed) :
    List.Forall₂ R (names.flatMap c.named) (names.flatMap c'.named) := by
  induction names with
  | nil => exact .nil
  | cons name names ih =>
    obtain ⟨hname, hnames⟩ := List.forall_mem_cons.mp hnames
    exact List.rel_append (named_becomes hR name hname hc) (ih hnames)

theorem classLike_settles (hc : List.Forall₂ R c.allNamed c'.allNamed)
    (hk : ∀ r ∈ visitReadings h (.classDocs s c), ∀ t', R r.tag t' → r.Keeps t') :
    Settle f (classLike h s c) (classLike h (s.renumber f) c') := by
  refine .append (.flatMap (named_flatMap_becomes hR (by decide) hc) fun t ht t' htt' => ?_)
    (misplaced_settles hR hc)
  exact property_settles (hk _ (List.mem_map_of_mem ht) t' htt') (hR t t' htt')

omit hR in
theorem native_renumber (text : Option String) :
    native h (s.renumber f) text = native h s text := by
  unfold native
  simp only [TypedTag.read_renumber]

omit hR in
theorem native_settles (text : Option String) :
    Settle f (native h s text).2 (native h (s.renumber f) text).2 := by
  rw [native_renumber]
  unfold native
  split
  · exact .nil
  · exact .nil
  · exact .reading _ _ _ _ _

omit hR in
theorem variableTag_settles {names : List String} {written : Option DocType}
    (hk : TagReading.Keeps ⟨{ scope := s, hierarchy := h }, .typed .variable, t⟩ t')
    (ht : t.Moves f t') :
    Settle f (variableTag h s names written t) (variableTag h (s.renumber f) names written t') := by
  have hname : (TypedTag.read { scope := s, hierarchy := h } t'.text .variable).name =
      (TypedTag.read { scope := s, hierarchy := h } t.text .variable).name := hk.name
  have htype : (TypedTag.read { scope := s, hierarchy := h } t'.text .variable).type =
      (TypedTag.read { scope := s, hierarchy := h } t.text .variable).type := hk.type
  unfold variableTag
  simp only [TypedTag.read_renumber]
  refine ((Settle.reading _ _ _ _ _).append (.ite (by rw [htype]) (fun _ => settle_onTag ht)
    fun _ => ?_)).append (.when (by rw [hname]) (settle_onTag ht))
  exact .append (.when (by rw [htype]) (settle_onTag ht)) (settle_spelling hk rfl)

omit hR in
theorem second_becomes (htags : List.Forall₂ R tags tags') :
    List.Forall₂ R tags[1]?.toList tags'[1]?.toList := by
  cases htags with
  | nil => exact .nil
  | cons _ hrest =>
    cases hrest with
    | nil => exact .nil
    | cons ht _ => exact .cons ht .nil

omit hR in
theorem isEmpty_becomes {α β : Type} {Q : α → β → Prop} {xs : List α} {ys : List β}
    (hxs : List.Forall₂ Q xs ys) : ys.isEmpty = xs.isEmpty := by
  cases hxs <;> rfl

theorem variableDocs_settles {place : Nat} (hplace : KeepsPlace f place) (names : List String)
    {comment comment' : Option DocComment} (written : Option String)
    (hc : Option.Rel (fun c c' => List.Forall₂ R c.allNamed c'.allNamed) comment comment')
    (hk : ∀ r ∈ visitReadings h (.variableDocs s place names comment written), ∀ t', R r.tag t' →
      r.Keeps t') : Settle f (variableDocs h s place names comment written)
        (variableDocs h (s.renumber f) (f place) names comment' written) := by
  cases hc with
  | none => exact .finding rfl hplace
  | @some c c' hc =>
    have htags := named_becomes hR "@var" (by decide) hc
    unfold variableDocs
    simp only [isEmpty_becomes htags, native_renumber]
    refine ((((Settle.when rfl (.finding rfl hplace)).append ?_).append ?_).append ?_).append
      (misplaced_settles hR hc)
    · exact .map (second_becomes htags) fun t _ t' ht => settle_onTag (hR t t' ht)
    · have hnative := native_settles (f := f) (h := h) (s := s) written
      rwa [native_renumber] at hnative
    · exact .flatMap htags fun t ht t' htt' =>
        variableTag_settles (hk _ (List.mem_map_of_mem ht) t' htt') (hR t t' htt')

structure ParamTag.Keeps (h : Hierarchy) (s : Scope) (f : Nat → Nat) (p p' : ParamTag) : Prop where
  number : p'.number = p.number
  moves : p.tag.Moves f p'.tag
  keeps : TagReading.Keeps ⟨{ scope := s, hierarchy := h }, .typed .modifiers, p.tag⟩ p'.tag
  typed : p.typed = TypedTag.read { scope := s, hierarchy := h } p.tag.text .modifiers
  typed' : p'.typed = TypedTag.read { scope := s, hierarchy := h } p'.tag.text .modifiers

namespace ParamTag.Keeps
variable {p p' : ParamTag}

omit hR in
theorem type (hp : Keeps h s f p p') : p'.typed.type = p.typed.type := by
  rw [hp.typed, hp.typed']
  exact hp.keeps.type

omit hR in
theorem name (hp : Keeps h s f p p') : p'.typed.name = p.typed.name := by
  rw [hp.typed, hp.typed']
  exact hp.keeps.name

omit hR in
theorem modifiers (hp : Keeps h s f p p') : p'.typed.modifiers = p.typed.modifiers := by
  rw [hp.typed, hp.typed']
  exact hp.keeps.modifiers

omit hR in
theorem args_eq (hp : Keeps h s f p p') : p'.args = p.args := by
  rw [ParamTag.args, ParamTag.args, hp.number]

omit hR in
theorem settles (hp : Keeps h s f p p') : Settle f (paramTag p) (paramTag p') := by
  unfold paramTag
  rw [hp.args_eq]
  refine ((Settle.reading _ _ _ _ _).append (.ite (by rw [hp.type])
    (fun _ => settle_onTag hp.moves) fun _ => ?_)).append
      (.when (by rw [hp.name]) (settle_onTag hp.moves))
  rw [hp.typed, hp.typed']
  exact settle_spelling hp.keeps rfl

end ParamTag.Keeps

theorem paramTags_keeps (htags : List.Forall₂ R tags tags')
    (hk : ∀ t ∈ tags, ∀ t', R t t' →
      TagReading.Keeps ⟨{ scope := s, hierarchy := h }, .typed .modifiers, t⟩ t') :
    List.Forall₂ (ParamTag.Keeps h s f) (paramTags h s tags) (paramTags h (s.renumber f) tags') := by
  unfold paramTags
  simp only [TypedTag.read_renumber]
  generalize 0 = k
  induction htags generalizing k with
  | nil => exact .nil
  | @cons t t' tags tags' ht _ ih =>
    obtain ⟨hfirst, hrest⟩ := List.forall_mem_cons.mp hk
    exact .cons ⟨rfl, hR t t' ht, hfirst t' ht, rfl, rfl⟩ (ih hrest (k + 1))

omit hR

theorem find?_renumber (listed : List Parameter) (p : Parameter → Bool)
    (hp : ∀ q, p (q.renumber f) = p q) : (listed.map (·.renumber f)).reverse.find? p =
      (listed.reverse.find? p).map (·.renumber f) := by
  rw [← List.map_reverse, List.find?_map]
  congr 2
  funext q
  exact hp q

theorem paired_keeps {ps ps' : List ParamTag} (listed : List Parameter)
    (hps : List.Forall₂ (ParamTag.Keeps h s f) ps ps') :
    List.Forall₂ (fun x y => ParamTag.Keeps h s f x.1 y.1 ∧ y.2 = x.2.renumber f)
      (paired listed ps) (paired (listed.map (·.renumber f)) ps') := by
  unfold paired
  rw [← hps.length_eq, List.length_map]
  split
  · rename_i hlength
    clear hlength
    induction hps generalizing listed with
    | nil => exact .nil
    | cons hp _ ih =>
      cases listed with
      | nil => exact .nil
      | cons q listed => exact .cons ⟨hp, rfl⟩ (ih listed)
  · refine List.rel_filterMap (fun p p' hp => ?_) hps
    rw [hp.name]
    cases p.typed.name with
    | none => exact .none
    | some n =>
      simp only [Option.bind_some]
      rw [find?_renumber listed (fun q => q.name == n) fun _ => rfl]
      cases listed.reverse.find? fun q => q.name == n with
      | none => exact .none
      | some q => exact .some ⟨hp, rfl⟩

theorem paramPair_settles {p p' : ParamTag} (positional : Bool) (q : Parameter)
    (hp : ParamTag.Keeps h s f p p') : Settle f (paramPair h s positional p q)
      (paramPair h (s.renumber f) positional p' (q.renumber f)) := by
  have hsigns : signsDiffer p'.typed (q.renumber f) = signsDiffer p.typed q := by
    unfold signsDiffer
    rw [hp.modifiers]
    rfl
  have hcontent : (q.renumber f).content = q.content := rfl
  have hname : (q.renumber f).name = q.name := rfl
  unfold paramPair
  simp only [TypedTag.read_renumber, hcontent, hname]
  rw [hp.args_eq, hsigns, hp.type, hp.name]
  exact ((Settle.when rfl (settle_onTag hp.moves)).append (.reading _ _ _ _ _)).append
    (.when rfl (settle_onTag hp.moves)) |>.append (.when rfl (settle_onTag hp.moves))

theorem params_settles {place : Nat} (hplace : KeepsPlace f place) (listed : List Parameter)
    (htags : List.Forall₂ (ParamTag.Keeps h s f) (paramTags h s tags)
      (paramTags h (s.renumber f) tags')) : Settle f (params h s place listed tags)
        (params h (s.renumber f) (f place) (listed.map (·.renumber f)) tags') := by
  unfold params
  simp only
  refine .append (.flatMap htags fun p _ p' hp => hp.settles) ?_
  rw [List.length_map, ← htags.length_eq]
  refine .ite (isEmpty_becomes htags) (fun _ => .nil) fun _ => ?_
  refine .append (.when rfl (.finding rfl hplace)) (.flatMap (paired_keeps listed htags) ?_)
  rintro ⟨p, q⟩ - ⟨p', q'⟩ ⟨hp, rfl⟩
  exact paramPair_settles _ q hp

theorem names_eq {ps ps' : List ParamTag} (hps : List.Forall₂ (ParamTag.Keeps h s f) ps ps') :
    ps'.filterMap (·.typed.name) = ps.filterMap (·.typed.name) := by
  induction hps with
  | nil => rfl
  | cons hp _ ih => rw [List.filterMap_cons, List.filterMap_cons, hp.name, ih]

theorem missingParams_settles {place : Nat} (hplace : KeepsPlace f place) (listed : List Parameter)
    (htags : List.Forall₂ (ParamTag.Keeps h s f) (paramTags h s tags)
      (paramTags h (s.renumber f) tags')) : Settle f (missingParams h s place listed tags)
        (missingParams h (s.renumber f) (f place) (listed.map (·.renumber f)) tags') := by
  unfold missingParams
  simp only [names_eq htags, List.filter_map]
  refine .append (.flatMap htags fun p _ p' hp => .reading _ _ _ _ _) ?_
  refine .map (R := fun q q' => q' = q.renumber f) ?_ fun q _ q' hq => ?_
  · exact List.forall₂_map_right_iff.mpr (List.forall₂_same.mpr fun _ _ => rfl)
  · rw [hq]
    exact .finding rfl hplace

theorem returnTag_settles {written : Option DocType}
    (hk : TagReading.Keeps ⟨{ scope := s, hierarchy := h }, .typed .type, t⟩ t')
    (ht : t.Moves f t') :
    Settle f (returnTag h s written t) (returnTag h (s.renumber f) written t') := by
  have htype : (TypedTag.read { scope := s, hierarchy := h } t'.text).type =
      (TypedTag.read { scope := s, hierarchy := h } t.text).type := hk.type
  unfold returnTag
  simp only [TypedTag.read_renumber]
  refine (Settle.reading _ _ _ _ _).append (.ite (by rw [htype]) (fun _ => settle_onTag ht)
    fun _ => ?_)
  exact .append (.when (by rw [htype]) (settle_onTag ht)) (settle_spelling hk rfl)

theorem function_settles {ts ts' : Tokens} (hts : ts.Renumbers ts' f)
    (hR : ∀ t t', R t t' → t.Moves f t') {place : Nat} (hplace : KeepsPlace f place)
    (name : Option String) {comment comment' : Option DocComment}
    (hc : Option.Rel (fun c c' => List.Forall₂ R c.allNamed c'.allNamed) comment comment')
    (hk : ∀ r ∈ visitReadings h (.functionDocs s place name comment), ∀ t', R r.tag t' →
      r.Keeps t') : Settle f (function h ts s place name comment)
        (function h ts' (s.renumber f) (f place) name comment') := by
  cases hc with
  | none => exact .when rfl (.finding rfl hplace)
  | @some c c' hc =>
    have hparams := named_becomes hR "@param" (by decide) hc
    have hreturns := named_becomes hR "@return" (by decide) hc
    obtain ⟨hkparams, hkreturns⟩ := List.forall_mem_append.mp hk
    have htags := paramTags_keeps (h := h) (s := s) hR hparams fun t ht =>
      hkparams _ (List.mem_map_of_mem ht)
    have hnative := native_settles (f := f) (h := h) (s := s) (ts.returnType place)
    rw [native_renumber] at hnative
    unfold function
    simp only [hts.list_eq hplace, hts.returnType_eq hplace, native_renumber]
    refine ((((((params_settles hplace _ htags).append ?_).append hnative).append ?_).append ?_).append
      ?_).append (misplaced_settles hR hc)
    · exact .ite rfl (fun _ => missingParams_settles hplace _ htags) fun _ => .nil
    · exact .map (second_becomes hreturns) fun t _ t' ht => settle_onTag (hR t t' ht)
    · exact .flatMap hreturns fun t ht t' htt' =>
        returnTag_settles (hkreturns _ (List.mem_map_of_mem ht) t' htt') (hR t t' htt')
    · exact .when (by rw [isEmpty_becomes hreturns]) (.finding rfl hplace)

/-- What is said about something met on the walk over another file, if its tags say the same. -/
theorem visitWithLog_settles {ts ts' : Tokens} (hts : ts.Renumbers ts' f)
    (hR : ∀ t t', R t t' → t.Moves f t') {v v' : Visit}
    (hv : v.Becomes f (fun c c' => List.Forall₂ R c.allNamed c'.allNamed) v')
    (hlast : KeepsPlace f (ts.size - 1) ∧ f (ts.size - 1) = ts'.size - 1)
    (hk : ∀ r ∈ visitReadings h v, ∀ t', R r.tag t' → r.Keeps t') :
    Settle f (visitWithLog h ts v) (visitWithLog h ts' v') := by
  refine .append ?_ (.of_none (by simp [plain?]) (by simp [plain?, isStyle]))
  cases hv with
  | nameSpace | imported | classLike | function | declared => exact .nil
  | comment => exact .of_none (by simp [visit, plain?]) (by simp [visit, plain?, isStyle])
  | templates s hc => exact templates_settles hR (templateTags_becomes hR hc) hk
  | classDocs s hc => exact classLike_settles hR hc hk
  | functionDocs s name hplace hc => exact function_settles hts hR hplace name hc hk
  | variableDocs s names native hplace hc =>
    exact variableDocs_settles hR hplace names native hc hk
  | fault e hplace =>
    obtain ⟨fault, place⟩ := e
    cases place with
    | none => exact .finding hlast.2.symm hlast.1
    | some i => exact .finding rfl (hplace i rfl)

end Check
end PhpDoc
