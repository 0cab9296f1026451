import PhpDoc.Proofs.RenumberedSteps
import PhpDoc.Proofs.Walks
/-!
Statements over a file whose tokens are numbered anew. They end where they ended and note what they
noted, as long as the templates are bound alike.
-/
namespace PhpDoc.Outline
open Step

namespace Renumbering
variable {ts ts' : Tokens} {α β γ δ : Type} {ρ : Renumbering ts ts'} {R : α → β → Prop}
  {S : γ → δ → Prop} {i j stop : Nat} {s : Scope}

theorem isLateBound_eq (ρ : Renumbering ts ts') (hi : ts.Settled i) (hlt : i < ts.size) :
    isLateBound ts' (ρ.number i) = isLateBound ts i := by
  unfold isLateBound
  rw [ρ.renumbers.next_eq (ρ.keeps_of_settled hi),
    ρ.renumbers.kind?_eq (ρ.keeps_of_settled (Tokens.settled_next hlt)),
    ρ.renumbers.previous?_eq hi.le]

theorem afterModifiers_eq (ρ : Renumbering ts ts') (hi : ts.Settled i) :
    afterModifiers ts' (ρ.number i) =
      (ρ.number (afterModifiers ts i).1, (afterModifiers ts i).2) := by
  have hkept : ∀ i (hlt : i < ts.size), ts.Settled i → ∃ hi' : ρ.number i < ts'.size,
      ts[i].Becomes ρ.number ts'[ρ.number i] := fun i hlt hi =>
    ((ρ.renumbers.step i hlt).resolve_left fun hout => by
      have := hout.succ
      have := ρ.keeps_of_settled hi
      omega).2
  fun_induction afterModifiers ts i with
  | case1 i hlt hmod hlate =>
    obtain ⟨hi', hbec⟩ := hkept i hlt hi
    rw [afterModifiers, dif_pos hi', hbec.kind, if_pos hmod, ρ.isLateBound_eq hi hlt, if_pos hlate,
      ρ.renumbers.next_eq (ρ.keeps_of_settled hi)]
  | case2 i hlt hmod hlate ih =>
    obtain ⟨hi', hbec⟩ := hkept i hlt hi
    rw [afterModifiers, dif_pos hi', hbec.kind, if_pos hmod, ρ.isLateBound_eq hi hlt, if_neg hlate,
      ρ.renumbers.next_eq (ρ.keeps_of_settled hi), ih (Tokens.settled_next hlt)]
  | case3 i hlt hmod =>
    obtain ⟨hi', hbec⟩ := hkept i hlt hi
    rw [afterModifiers, dif_pos hi', hbec.kind, if_neg hmod]
  | case4 i hge =>
    rw [afterModifiers, dif_neg (Nat.not_lt.mpr (ρ.renumbers.size_le (Nat.le_of_not_lt hge)))]

/-- What leaves no comment open is in no body of a tag. -/
theorem isBody_of_leavesOpen {k : Kind} (h : k.leavesOpen = false) : k.isBody = false := by
  revert h
  cases k <;> decide

/-- Before a token that stands in no comment there is none that does. -/
theorem leavesOpen_before (ρ : Renumbering ts ts') {k k' : Kind} (hk : ts.kind? i = some k)
    (hk' : ts.kind? (i + 1) = some k') (hneeds : k'.needsOpen = false) : k.leavesOpen = false :=
  (ρ.enclosed.step hk hk').symm.trans hneeds

/-- A token that stands in no comment keeps its place. -/
theorem keeps_of_needsOpen (ρ : Renumbering ts ts') {k : Kind} (hk : ts.kind? i = some k)
    (hneeds : k.needsOpen = false) : KeepsPlace ρ.number i := by
  refine ρ.renumbers.succ_of_kind? hk ?_
  revert hneeds
  cases k <;> decide

/-- The token before one that stands in no comment, without fillers, does not stand in one either. -/
theorem previousSolid_spec (ρ : Renumbering ts ts') {k : Kind} (hk : ts.kind? i = some k)
    (hneeds : k.needsOpen = false) :
    previousSolid ts' (ρ.number i) = ρ.number (previousSolid ts i) ∧
      ∃ k, ts.kind? (previousSolid ts i) = some k ∧ k.isBody = false := by
  induction i generalizing k with
  | zero =>
    rw [ρ.renumbers.zero]
    exact ⟨ρ.renumbers.zero.symm, k, hk, by revert hneeds; cases k <;> decide⟩
  | succ i ih =>
    obtain ⟨k', hk'⟩ := Tokens.exists_kind? (Nat.lt_of_succ_lt (Tokens.lt_size_of_kind? hk))
    have hleaves := ρ.leavesOpen_before hk' hk hneeds
    have hkeeps : KeepsPlace ρ.number i := ρ.renumbers.succ_of_kind? hk' (isBody_of_leavesOpen hleaves)
    have hkind := ρ.renumbers.kind?_eq hkeeps
    -- the place before a filler is nought in one file exactly if it is in the other
    have hzero : ρ.number i = 0 ↔ i = 0 := by
      constructor
      · intro hi
        refine Nat.eq_zero_of_not_pos fun hpos => ?_
        have hsize : 0 < ts.size := Nat.lt_of_le_of_lt (Nat.zero_le _) (Tokens.lt_size_of_kind? hk)
        obtain ⟨first, hfirst⟩ := Tokens.exists_kind? hsize
        have hone := ρ.keeps_of_needsOpen hfirst (ρ.enclosed.first hfirst)
        have := ρ.renumbers.mono (show 0 + 1 ≤ i from hpos)
        omega
      · rintro rfl
        exact ρ.renumbers.zero
    have hstop : ∃ k, ts.kind? i = some k ∧ k.isBody = false :=
      ⟨k', hk', isBody_of_leavesOpen hleaves⟩
    have hback : k'.needsOpen = false → (if ρ.number i = 0 then 0
        else previousSolid ts' (ρ.number i)) = ρ.number (if i = 0 then 0 else previousSolid ts i) ∧
        ∃ k, ts.kind? (if i = 0 then 0 else previousSolid ts i) = some k ∧ k.isBody = false := by
      intro hneeds'
      obtain ⟨heq, hfound⟩ := ih hk' hneeds'
      by_cases hi : i = 0
      · rw [if_pos hi, if_pos (hzero.mpr hi)]
        exact ⟨ρ.renumbers.zero.symm, hi ▸ hstop⟩
      · rw [if_neg hi, if_neg (mt hzero.mp hi)]
        exact ⟨heq, hfound⟩
    rw [hkeeps, previousSolid, previousSolid, hkind, hk']
    split
    · rename_i heq
      cases heq
      exact hback rfl
    · rename_i heq
      cases heq
      exact hback rfl
    · exact ⟨rfl, hstop⟩

def renumberName (f : Nat → Nat) (q : Nat × String) : Nat × String :=
  (f q.1, q.2)

def renumberNames (f : Nat → Nat) (r : List (Nat × String) × Nat) : List (Nat × String) × Nat :=
  (r.1.map (renumberName f), f r.2)

theorem map_renumberNames (f : Nat → Nat) (found : List (Nat × String))
    (o : Option (List (Nat × String) × Nat)) :
    (o.map (renumberNames f)).map (fun r => (found.map (renumberName f) ++ r.1, r.2)) =
      (o.map fun r => (found ++ r.1, r.2)).map (renumberNames f) := by
  cases o <;> simp [renumberNames]

/-- Before the end of the file and of a stretch there is more in the other file as well. -/
theorem more_becomes (ρ : Renumbering ts ts') {stop : Option Nat} (hi : KeepsPlace ρ.number i)
    (hmore : i < ts.size ∧ stop.all (i < ·) = true) :
    ρ.number i < ts'.size ∧ (stop.map ρ.number).all (ρ.number i < ·) = true := by
  refine ⟨(ρ.renumbers.lt_size_iff hi).mpr hmore.1, ?_⟩
  cases stop with
  | none => rfl
  | some j => simpa [ρ.renumbers.lt_iff hi] using hmore.2

theorem more_of_becomes (ρ : Renumbering ts ts') {stop : Option Nat}
    (hmore : ρ.number i < ts'.size ∧ (stop.map ρ.number).all (ρ.number i < ·) = true) :
    i < ts.size ∧ stop.all (i < ·) = true := by
  refine ⟨Nat.lt_of_not_le fun hle => ?_, ?_⟩
  · exact absurd hmore.1 (Nat.not_lt.mpr (ρ.renumbers.size_le hle))
  · cases stop with
    | none => rfl
    | some j =>
      refine decide_eq_true (Nat.lt_of_not_le fun hle => ?_)
      exact absurd (of_decide_eq_true hmore.2) (Nat.not_lt.mpr (ρ.renumbers.mono hle))

theorem variableNames_eq (ρ : Renumbering ts ts') (constant : Bool) (stop : Option Nat) (valued : Bool)
    (i : Nat) : variableNames ts' constant (stop.map ρ.number) valued (ρ.number i) =
      (variableNames ts constant stop valued i).map (renumberNames ρ.number) := by
  fun_induction variableNames ts constant stop valued i with
  | case1 valued i h hk ih =>
    obtain ⟨hkeeps, hi', hbec⟩ := ρ.renumbers.kept h.1 (by rw [hk]; rfl)
    rw [variableNames, dif_pos (ρ.more_becomes hkeeps h)]
    simp only [hbec.kind, hk]
    rfl
  | case2 valued i h next hk ih =>
    obtain ⟨hkeeps, hpast, hi', hbec⟩ := ρ.renumbers.pastGroup_of_kept h.1 (by rw [hk]; rfl)
    rw [variableNames, dif_pos (ρ.more_becomes hkeeps h)]
    simp only [hbec.kind, hk, hpast, ih]
    exact map_renumberNames _ [] _
  | case3 valued i h next hk named ih =>
    obtain ⟨hkeeps, hpast, hi', hbec⟩ := ρ.renumbers.pastGroup_of_kept h.1 (by rw [hk]; rfl)
    have hkind : ts.kind? i = some .equal := by simp [Tokens.kind?, h.1, hk]
    obtain ⟨hprevious, k, hnamed, hbody⟩ := ρ.previousSolid_spec hkind rfl
    obtain ⟨t, ht, rfl⟩ := Option.map_eq_some_iff.mp hnamed
    obtain ⟨hlt, rfl⟩ := Array.getElem?_eq_some_iff.mp ht
    obtain ⟨-, hlt', hbec'⟩ := ρ.renumbers.kept hlt hbody
    have htext := hbec'.text (by rintro he; rw [he] at hbody; cases hbody)
    rw [variableNames, dif_pos (ρ.more_becomes hkeeps h)]
    simp only [hbec.kind, hk, hpast, ih, hprevious, Array.getElem?_eq_getElem hlt']
    rw [← map_renumberNames]
    congr 3
    split <;> simp [renumberName, named, hlt, htext]
  | case4 valued i h next hk ih =>
    obtain ⟨hkeeps, hpast, hi', hbec⟩ := ρ.renumbers.pastGroup_of_kept h.1 (by rw [hk]; rfl)
    have htext := hbec.text (by rw [hk]; decide)
    rw [variableNames, dif_pos (ρ.more_becomes hkeeps h)]
    simp only [hbec.kind, hk, hpast, ih, htext]
    rw [← map_renumberNames]
    congr 3
    split <;> simp [renumberName]
  | case5 valued i h next hsemi hcomma hequal hvar ih =>
    rcases ρ.renumbers.pastGroup_eq h.1 with ⟨hout, hpast⟩ | ⟨hkeeps, hpast, hi', hbec⟩
    · rw [← hpast, ih, ← map_renumberNames _ []]
      cases variableNames ts constant stop valued (ts.pastGroup i) <;> rfl
    · rw [variableNames, dif_pos (ρ.more_becomes hkeeps h), ← map_renumberNames _ [], ← ih, ← hpast]
      simp only [hbec.kind]
      rfl
  | case6 valued i h =>
    rw [variableNames, dif_neg (mt ρ.more_of_becomes h)]
    rfl

/-- The names that are declared stand at tokens that keep their places, and so does the semicolon. -/
theorem keeps_of_variableNames (ρ : Renumbering ts ts') {constant valued : Bool} {stop : Option Nat}
    {named : List (Nat × String)} {n : Nat}
    (h : variableNames ts constant stop valued i = some (named, n)) : KeepsPlace ρ.number n ∧
      ∀ q ∈ named, KeepsPlace ρ.number q.1 ∧ q.1 < ts.size := by
  have hkeeps : ∀ {j k}, ts.kind? j = some k → k.isBody = false →
      KeepsPlace ρ.number j ∧ j < ts.size := fun hk hbody =>
    ⟨ρ.renumbers.succ_of_kind? hk hbody, Tokens.lt_size_of_kind? hk⟩
  fun_induction variableNames ts constant stop valued i generalizing named with
  | case1 valued i hi hk ih =>
    cases h
    exact ⟨(ρ.renumbers.kept hi.1 (by rw [hk]; rfl)).1, by simp⟩
  | case6 => cases h
  | case2 | case5 =>
    rename_i ih
    obtain ⟨⟨later, m⟩, hlater, heq⟩ := Option.map_eq_some_iff.mp h
    cases heq
    exact ih _ hlater
  | case3 valued i hi next hk =>
    rename_i ih
    obtain ⟨⟨later, m⟩, hlater, heq⟩ := Option.map_eq_some_iff.mp h
    cases heq
    obtain ⟨hn, hlater⟩ := ih _ hlater
    have hkind : ts.kind? i = some .equal := by simp [Tokens.kind?, hi.1, hk]
    obtain ⟨-, k, hprior, hbody⟩ := ρ.previousSolid_spec hkind rfl
    refine ⟨hn, fun q hq => (List.mem_append.mp hq).elim (fun hq => ?_) (hlater q)⟩
    split at hq
    · rw [List.mem_singleton.mp hq]
      exact hkeeps hprior hbody
    · cases hq
  | case4 valued i hi next hk =>
    rename_i ih
    obtain ⟨⟨later, m⟩, hlater, heq⟩ := Option.map_eq_some_iff.mp h
    cases heq
    obtain ⟨hn, hlater⟩ := ih _ hlater
    refine ⟨hn, fun q hq => (List.mem_append.mp hq).elim (fun hq => ?_) (hlater q)⟩
    split at hq
    · rw [List.mem_singleton.mp hq]
      exact hkeeps (j := i) (k := .variable) (by simp [Tokens.kind?, hi.1, hk]) rfl
    · cases hq

theorem resume_eq (ρ : Renumbering ts ts') (stop i : Nat) :
    resume ts' (ρ.number stop) (ρ.number i) = ρ.number (resume ts stop i) := by
  fun_induction resume ts stop i with
  | case1 i h hk =>
    obtain ⟨hkeeps, hi', hbec⟩ := ρ.renumbers.kept h.1 (by rw [hk]; rfl)
    rw [resume, dif_pos ⟨hi', (ρ.renumbers.lt_iff hkeeps).mpr h.2⟩]
    simp only [hbec.kind, hk, hkeeps]
  | case2 i h g hg hk =>
    obtain ⟨hkeeps, hi', hbec⟩ := ρ.renumbers.kept h.1 (by rw [hk]; rfl)
    rw [resume, dif_pos ⟨hi', (ρ.renumbers.lt_iff hkeeps).mpr h.2⟩]
    simp only [hbec.kind, hk, hbec.group, hg, Option.map_some, Group.renumber,
      (ρ.renumbers.marks i h.1 g (.inl hg)).2]
  | case3 i h hk =>
    obtain ⟨hkeeps, hi', hbec⟩ := ρ.renumbers.kept h.1 (by rw [hk]; rfl)
    rw [resume, dif_pos ⟨hi', (ρ.renumbers.lt_iff hkeeps).mpr h.2⟩]
    simp only [hbec.kind, hk]
  | case4 i h hsemi hopen hclose ih =>
    rcases ρ.renumbers.step i h.1 with hout | ⟨hkeeps, hi', hbec⟩
    · rw [← hout.succ, ih]
    · rw [← ih, hkeeps, resume, dif_pos ⟨hi', (ρ.renumbers.lt_iff hkeeps).mpr h.2⟩]
      simp only [hbec.kind, hbec.group]
      split
      · contradiction
      · rename_i hk hg
        obtain ⟨g', hg', -⟩ := Option.map_eq_some_iff.mp hg
        exact (hclose g' hk hg').elim
      · contradiction
      · rfl
  | case5 i h => rw [resume, dif_neg (ρ.renumbers.not_lt_of_not_lt h)]

theorem recover_eq (ρ : Renumbering ts ts') (stop : Nat) (hi : ts.Settled i) (j : Nat) :
    recover ts' (ρ.number stop) (ρ.number i) (ρ.number j) = ρ.number (recover ts stop i j) := by
  have hmax : max (ρ.number j) (ρ.number i + 1) = ρ.number (max j (i + 1)) := by
    rw [← ρ.keeps_of_settled hi]
    rcases Nat.le_total j (i + 1) with hle | hle
    · rw [Nat.max_eq_right hle, Nat.max_eq_right (ρ.renumbers.mono hle)]
    · rw [Nat.max_eq_left hle, Nat.max_eq_left (ρ.renumbers.mono hle)]
  rw [recover, hmax, ρ.resume_eq, ρ.renumbers.atOrAfter_eq, recover]

namespace Carries

/-- A step over the other file that comes to the same as another one. -/
theorem of_same {x : Step α} {y y' : Step β} (hy : ∀ q, Same ts' y y' q) (h : ρ.Carries R x y) :
    ρ.Carries R x y' := by
  intro p q hpq
  rw [← hy q]
  exact h p q hpq

theorem namespaceName : ρ.Carries Eq namespaceName namespaceName := by
  refine Carries.kind?.next fun k => ?_
  split
  · exact (take none).bind fun t t' ht => .pure (by rw [ht.same])
  · exact .pure rfl

theorem namespaceStatement (s : Scope) :
    ρ.Carries ρ.Scoped (namespaceStatement s) (namespaceStatement (s.renumber ρ.number)) := by
  refine (take _).bind fun keyword keyword' hkeyword => namespaceName.next fun bare => ?_
  refine (meet (.nameSpace _)).next fun _ => Carries.kind?.next fun k => ?_
  split
  · exact (take none).bind fun _ _ _ => .pure rfl
  · refine (paired hkeyword.body fun g hg => hkeyword.anchored g (.inr (.inr hg))).bind ?_
    rintro body _ ⟨rfl, hbody⟩
    refine (enter s { kind := .nameSpace, closer := some body.closer, nameSpace := _ }
      fun i hi => by cases hi; exact hbody.closer).bind ?_
    rintro inner _ rfl
    exact (take none).bind fun _ _ _ => (within inner hbody.lt_size hbody.closer).next fun _ =>
      .pure rfl
  · exact .fail _

/-- Moving past the group of a token. -/
theorem past_group {t t' : Token} (ht : ρ.Stands t t') :
    ρ.Carries Eq (do Step.jump ((← Step.paired t.group).closer + 1))
      (do Step.jump ((← Step.paired t'.group).closer + 1)) := by
  refine (paired ht.group fun g hg => ht.anchored g (.inl hg)).bind ?_
  rintro g _ ⟨rfl, hg⟩
  exact jump_past hg.lt_size hg.closer

theorem traitStatement : ρ.Carries Eq traitStatement traitStatement := by
  refine (take _).bind fun _ _ _ => (skipTo _ (by decide)).next fun _ =>
    Carries.current.bind fun t t' ht => ?_
  rw [ht.kind]
  split
  · exact past_group ht
  · exact (take none).bind fun _ _ _ => .pure rfl

theorem importsClasses : ρ.Carries Eq importsClasses importsClasses := by
  refine Carries.kind?.next fun k => ?_
  split
  · exact (take none).bind fun _ _ _ => .pure rfl
  · exact (take none).bind fun _ _ _ => .pure rfl
  · exact .pure rfl

theorem importedName : ρ.Carries Eq importedName importedName := by
  refine (take none).bind fun t t' ht => ?_
  rw [ht.kind, ht.same]
  split
  · exact .pure rfl
  · exact .fail _

theorem addImport (s : Scope) (name : String) (classes : Bool) :
    ρ.Carries ρ.Scoped (addImport s name classes) (addImport (s.renumber ρ.number) name classes) := by
  have halias : ρ.Carries Eq (importAlias name) (importAlias name) := by
    refine (accept _).next fun taken => ?_
    split
    · exact (take none).bind fun t t' ht => .pure ht.same.symm
    · exact .pure rfl
  refine halias.next fun short => ?_
  split
  · exact (meet (.imported _ _)).next fun _ => .pure rfl
  · exact .pure rfl

theorem importGroup (s : Scope) (start : String) (classes : Bool) (bound : Nat) :
    ρ.Carries ρ.Scoped (importGroup start classes bound s)
      (importGroup start classes bound (s.renumber ρ.number)) := by
  induction bound generalizing s with
  | zero => exact throw_nowhere _
  | succ bound ih =>
    refine Carries.kind?.next fun k => ?_
    split
    · exact (take none).bind fun _ _ _ => .pure rfl
    · refine importsClasses.next fun members => importedName.next fun name => ?_
      refine (addImport s _ _).bind ?_
      rintro next _ rfl
      exact (accept _).next fun _ => ih next

theorem importItem (s : Scope) (classes : Bool) (bound : Nat) :
    ρ.Carries ρ.Scoped (importItem classes bound s)
      (importItem classes bound (s.renumber ρ.number)) := by
  refine importedName.next fun name => (accept _).next fun grouped => ?_
  split
  · exact (take _).bind fun _ _ _ => importGroup s _ _ _
  · exact addImport s _ _

theorem importList (s : Scope) (classes : Bool) (bound : Nat) :
    ρ.Carries ρ.Scoped (importList classes bound s)
      (importList classes bound (s.renumber ρ.number)) := by
  induction bound generalizing s with
  | zero => exact throw_nowhere _
  | succ bound ih =>
    refine (importItem s _ _).bind ?_
    rintro next _ rfl
    refine (accept _).next fun more => ?_
    split
    · exact ih next
    · exact .pure rfl

/-- The bounds on the names of an import differ in the two files, but neither of them ends a list. -/
theorem importStatement (s : Scope) :
    ρ.Carries ρ.Scoped (importStatement s) (importStatement (s.renumber ρ.number)) := by
  refine (take _).bind fun _ _ _ => importsClasses.next fun classes => reading ?_
  have hsize : ts'.size ≤ ts.size := ρ.renumbers.size ▸ ρ.renumbers.le_self ts.size
  refine ((importList s classes (ts.size + 1)).of_same fun q =>
    importList_same classes (by omega) (by omega)).bind ?_
  rintro next _ rfl
  exact (take _).bind fun _ _ _ => .pure rfl

theorem useStatement (s : Scope) :
    ρ.Carries ρ.Scoped (useStatement s) (useStatement (s.renumber ρ.number)) := by
  unfold Outline.useStatement
  rw [Scope.kind_renumber]
  split
  · exact traitStatement.next fun _ => .pure rfl
  · exact importStatement s
  · exact importStatement s
  · exact .fail _

theorem declareStatement : ρ.Carries Eq declareStatement declareStatement := by
  refine (take none).bind fun _ _ _ => Carries.kind?.next fun k => ?_
  split
  · exact Carries.current.bind fun t t' ht => past_group ht
  · exact .pure rfl

theorem captureList : ρ.Carries Eq captureList captureList := by
  refine Carries.kind?.next fun k => ?_
  split
  · refine (take none).bind fun _ _ _ => Carries.kind?.next fun k => ?_
    split
    · exact Carries.current.bind fun t t' ht => past_group ht
    · exact .fail _
  · exact .pure rfl

theorem withinGroup (s : Scope) {g g' : Option Group} (hg : g' = g.map (·.renumber ρ.number))
    (hanchors : ∀ x, g = some x → ρ.Anchors x) :
    ρ.Carries Eq (withinGroup s g) (withinGroup (s.renumber ρ.number) g') := by
  subst hg
  cases g with
  | none => exact .pure rfl
  | some g =>
    have hg := hanchors g rfl
    exact (jump_past (Nat.lt_trans hg.lt hg.lt_size) hg.opener).next fun _ =>
      within s hg.lt_size hg.closer

/-- Properties and constants bind no templates. -/
theorem variableStatement (s : Scope) {c c' : Option DocComment} (hc : Option.Rel ρ.related c c') :
    ρ.Carries Eq (variableStatement s c) (variableStatement (s.renumber ρ.number) c') := by
  refine reading (placed fun i hi => (accept _).next fun _ => placed fun keyword hkeyword =>
    Carries.kind?.next fun k => ?_)
  have hnames := ρ.variableNames_eq (decide (k = some .constKw)) s.closer false keyword
  simp only [Scope.renumber, hnames]
  cases hnamed : variableNames ts (decide (k = some .constKw)) s.closer false keyword with
  | none =>
    exact throw (e := ⟨.unterminatedDeclaration, some i⟩) fun j hj => by
      cases hj
      exact ρ.keeps_of_settled hi
  | some r =>
    obtain ⟨named, n⟩ := r
    obtain ⟨hn, hkeeps⟩ := ρ.keeps_of_variableNames hnamed
    have hlt := (bounds_of_variableNames hnamed).2
    have hsame : (named.map (renumberName ρ.number)).map (·.2) = named.map (·.2) := by
      simp [renumberName]
    simp only [Option.map_some, renumberNames, hsame]
    refine (meet (.declared _)).next fun _ => ?_
    cases named with
    | nil => exact jump_past hlt hn
    | cons first more =>
      obtain ⟨hfirst, hsize⟩ := hkeeps first List.mem_cons_self
      simp only [List.map_cons, List.head?_cons, renumberName]
      rw [ρ.renumbers.typeOfConstant_eq (ρ.keeps_of_settled hkeyword),
        ρ.renumbers.propertyType_eq (Nat.le_of_lt hsize)]
      exact (meet (.variableDocs s _ _ hfirst hc)).next fun _ => jump_past hlt hn

end Carries
end Renumbering
end PhpDoc.Outline
