import Mathlib.Data.List.Forall2
import PhpDoc.Command.CheckFiles
import PhpDoc.Command.Machine
/-!
The files that a run writes. Over a machine given as data, checking files changes nothing but the texts
of these files, and not even those unless fixes are wanted.
-/
namespace PhpDoc

namespace Machine
variable {s s' s'' : Machine} {names : List String} {text : String} {ps : List (List String)}
  {α β : Type}

/-- Of the files no more than the texts of some have changed. -/
def OnlyWrites (ps : List (List String)) (s s' : Machine) : Prop :=
  List.Forall₂ (fun f f' => f'.1 = f.1 ∧ (f.1 ∉ ps → f' = f)) s.files s'.files

namespace OnlyWrites

theorem of_eq (h : s'.files = s.files) : OnlyWrites ps s s' := by
  rw [OnlyWrites, h]
  exact List.forall₂_same.mpr fun f _ => ⟨rfl, fun _ => rfl⟩

theorem trans (h : OnlyWrites ps s s') (h' : OnlyWrites ps s' s'') : OnlyWrites ps s s'' := by
  unfold OnlyWrites at h h' ⊢
  generalize s.files = fs, s'.files = fs', s''.files = fs'' at h h' ⊢
  induction h generalizing fs'' with
  | nil =>
    cases h'
    exact .nil
  | cons hf _ ih =>
    cases h' with
    | cons hf' h' =>
      refine .cons ⟨hf'.1.trans hf.1, fun hout => ?_⟩ (ih _ h')
      obtain rfl := hf.2 hout
      exact hf'.2 hout

theorem write (h : names ∈ ps) : OnlyWrites ps s (s.write names text) := by
  refine List.forall₂_map_right_iff.mpr (List.forall₂_same.mpr fun f _ => ?_)
  split
  · rename_i hf
    exact ⟨rfl, fun hout => absurd (hf ▸ h) hout⟩
  · exact ⟨rfl, fun _ => rfl⟩

/-- Where no file may change all files are as they were. -/
theorem files_eq (h : OnlyWrites [] s s') : s'.files = s.files := by
  unfold OnlyWrites at h
  generalize s.files = fs, s'.files = fs' at h ⊢
  induction h with
  | nil => rfl
  | cons hf _ ih => rw [hf.2 List.not_mem_nil, ih]

/-- A step and what follows it, from a machine on. -/
theorem bind {x : StateM Machine α} {f : α → StateM Machine β} (hx : OnlyWrites ps s (x.run s).run.2)
    (hf : OnlyWrites ps (x.run s).run.2 ((f (x.run s).run.1).run (x.run s).run.2).run.2) :
    OnlyWrites ps s ((x >>= f).run s).run.2 :=
  hx.trans hf

end OnlyWrites

/-- A step that writes no other files. -/
def Writes (ps : List (List String)) (x : StateM Machine α) : Prop :=
  ∀ s, OnlyWrites ps s (x.run s).run.2

namespace Writes

theorem pure (a : α) : Writes ps (pure a) :=
  fun _ => .of_eq rfl

theorem bind {x : StateM Machine α} {f : α → StateM Machine β} (hx : Writes ps x)
    (hf : ∀ a, Writes ps (f a)) : Writes ps (x >>= f) :=
  fun s => .bind (hx s) (hf _ _)

section
variable (start : Machine) (p : Path)

theorem kind? : Writes ps (start.host.kind? p) :=
  fun _ => .of_eq rfl

theorem read : Writes ps (start.host.read p) :=
  fun _ => .of_eq rfl

theorem filesBelow : Writes ps (start.host.filesBelow p) :=
  fun _ => .of_eq rfl

theorem print : Writes ps (start.host.print text) :=
  fun _ => .of_eq rfl

theorem log (e : LogEntry) : Writes ps (start.host.log e) :=
  fun _ => .of_eq rfl

theorem write (h : p.parts ∈ ps) : Writes ps (start.host.write p text) :=
  fun _ => OnlyWrites.write h

theorem forM_log (entries : List LogEntry) : Writes ps (entries.forM start.host.log) := by
  induction entries with
  | nil => exact .pure _
  | cons e entries ih => exact .bind (.log start e) fun _ => ih

end

end Writes
end Machine

namespace Command
open Machine (Writes OnlyWrites)
variable (start : Machine) (config : Config) {ps : List (List String)}

/-- What checking a file writes: the file, if fixes are wanted. -/
theorem writes_checkFile (layout : Layout) (t : Tally) (p : Path)
    (hp : config.fixes = true → p.parts ∈ ps) :
    Writes ps (checkFile start.host config layout t p) := by
  refine .bind (.log start _) fun _ => .bind (.read start p) fun content => ?_
  cases content with
  | error e => exact .bind (.log start _) fun _ => .pure _
  | ok source =>
    refine .bind (.forM_log start _) fun _ => .bind (.print start) fun _ =>
      .bind (.log start _) fun _ => ?_
    split
    · rename_i hfixes
      rw [Bool.and_eq_true] at hfixes
      exact .bind (.write start p (hp hfixes.1)) fun _ => .bind (.log start _) fun _ => .pure _
    · exact .pure _

theorem writes_checkAll (layout : Layout) (t : Tally) (files : List Path)
    (hfiles : config.fixes = true → ∀ p ∈ files, p.parts ∈ ps) :
    Writes ps (checkAll start.host config layout t files) := by
  induction files generalizing t with
  | nil => exact .pure _
  | cons p files ih =>
    refine .bind (writes_checkFile start config layout t p fun h => hfiles h p List.mem_cons_self)
      fun done => ?_
    cases done with
    | none => exact .pure _
    | some t => exact ih t fun h q hq => hfiles h q (List.mem_cons_of_mem p hq)

theorem writes_checkFiles (format : Format) (files : List Path)
    (hfiles : config.fixes = true → ∀ p ∈ files, p.parts ∈ ps) :
    Writes ps (checkFiles start.host config format files) := by
  refine .bind (writes_checkAll start config _ _ files hfiles) fun (t, complete) => ?_
  refine .bind (.print start) fun _ => ?_
  split
  · exact .pure _
  · split
    · exact .pure _
    · exact .pure _

/-- A run writes no file but those that it checks, and none at all unless fixes are wanted. -/
theorem checkFiles_onlyWrites (format : Format) (files : List Path) (s : Machine) :
    OnlyWrites (if config.fixes then files.map (·.parts) else []) s
      ((checkFiles start.host config format files).run s).run.2 := by
  refine writes_checkFiles start config format files (fun h p hp => ?_) s
  rw [if_pos h]
  exact List.mem_map_of_mem hp

theorem writes_configAt (p : Path) : Writes ps (configAt start.host p) := by
  refine .bind (.read start p) fun content => ?_
  cases content with
  | error fault => exact .pure _
  | ok source =>
    simp only
    split
    · exact .pure _
    · exact .bind (.log start _) fun _ => .pure _

theorem writes_findConfig (explicit : Option String) : Writes ps (findConfig start.host explicit) := by
  have hdefault : Writes ps (findConfig start.host none) := by
    refine .bind (.kind? start _) fun kind => ?_
    split
    · exact writes_configAt start _
    · exact .pure _
  cases explicit with
  | none => exact hdefault
  | some text =>
    unfold findConfig
    simp only
    split
    · exact writes_configAt start _
    · exact hdefault

theorem writes_filesOf (extensions texts : List String) :
    Writes ps (filesOf start.host extensions texts) := by
  have hat : ∀ p, Writes ps (filesAt start.host extensions p) := by
    refine fun p => .bind (.kind? start p) fun kind => ?_
    split
    · exact .pure _
    · exact .pure _
    · exact .bind (.filesBelow start p) fun _ => .pure _
  induction texts with
  | nil => exact .pure _
  | cons text texts ih =>
    refine .bind (hat _) fun found => ?_
    cases found with
    | none => exact .bind (.log start _) fun _ => .pure _
    | some found => exact .bind ih fun _ => .pure _

/-- Where the configuration in force wants no fixes, a check leaves all files as they are. -/
theorem check_files (paths : List String) (format : Option Format) (configPath : Option String)
    (overrides : Config.Overrides) (s : Machine)
    (hfixes : ∀ config, ((findConfig start.host configPath).run s).run.1 = .ok config →
      (config.overridden overrides).fixes = false) :
    ((check start.host paths format configPath overrides).run s).run.2.files = s.files := by
  refine (OnlyWrites.bind (writes_findConfig start configPath s) ?_).files_eq
  generalize ((findConfig start.host configPath).run s).run = r at hfixes ⊢
  obtain ⟨_ | config, found⟩ := r
  · exact Writes.bind (.log start _) (fun _ => .pure _) found
  · refine Writes.bind (writes_filesOf start _ paths) (fun files => ?_) found
    cases files with
    | none => exact .pure _
    | some files =>
      refine .bind (.log start _) fun _ => ?_
      cases format with
      | none => exact .pure _
      | some format =>
        refine .bind (writes_checkFiles start _ format files fun h => ?_) fun _ => .pure _
        rw [hfixes config rfl] at h
        cases h

end Command
end PhpDoc
