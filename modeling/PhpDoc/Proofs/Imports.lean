import PhpDoc.Outline.Import
import PhpDoc.Proofs.Steps
/-!
Imports. The steps that read them only move on, and every name takes a token, so that the bounds on
the number of names never end a list.
-/
namespace PhpDoc.Outline
open Step

section
variable {ts : Tokens} {I : Progress → Prop} {scope : Scope}

theorem importsClasses_keeps (hI : Onward ts I) : Keeps ts I importsClasses := by
  refine .bind .kind? fun k => ?_
  split
  · exact .bind (.take hI none) fun _ => .pure false
  · exact .bind (.take hI none) fun _ => .pure false
  · exact .pure true

theorem importedName_keeps (hI : Onward ts I) : Keeps ts I importedName := by
  refine .bind (.take hI none) fun t => ?_
  split
  · exact .pure _
  · exact .fail _

theorem addImport_keeps (hI : Onward ts I) (name : String) (classes : Bool) :
    Keeps ts I (addImport scope name classes) := by
  refine .bind (.bind (.accept hI _) fun taken => ?_) fun short => ?_
  · split
    · exact .bind (.take hI none) fun t => .pure _
    · exact .pure _
  · split
    · exact .bind (.meet hI rfl) fun _ => .pure _
    · exact .pure _

theorem importGroup_keeps (hI : Onward ts I) (start : String) (classes : Bool) (bound : Nat) :
    Keeps ts I (importGroup start classes bound scope) := by
  induction bound generalizing scope with
  | zero => exact .throw _
  | succ bound ih =>
    refine .bind .kind? fun k => ?_
    split
    · exact .bind (.take hI none) fun _ => .pure scope
    · exact .bind (importsClasses_keeps hI) fun _ => .bind (importedName_keeps hI) fun _ =>
        .bind (addImport_keeps hI _ _) fun _ => .bind (.accept hI _) fun _ => ih

/-- What stands after the first name of an item. -/
theorem importTail_keeps (hI : Onward ts I) (name : String) (classes : Bool) (bound : Nat) :
    Keeps ts I (do
      if ← accept .backslash then
        let _ ← take (some .openBrace)
        importGroup (name ++ "\\") classes bound scope
      else addImport scope name classes) := by
  refine .bind (.accept hI _) fun grouped => ?_
  split
  · exact .bind (.take hI _) fun _ => importGroup_keeps hI _ _ _
  · exact addImport_keeps hI _ _

theorem importItem_keeps (hI : Onward ts I) (classes : Bool) (bound : Nat) :
    Keeps ts I (importItem classes bound scope) :=
  .bind (importedName_keeps hI) fun _ => importTail_keeps hI _ _ _

theorem importList_keeps (hI : Onward ts I) (classes : Bool) (bound : Nat) :
    Keeps ts I (importList classes bound scope) := by
  induction bound generalizing scope with
  | zero => exact .throw _
  | succ bound ih =>
    refine .bind (importItem_keeps hI _ _) fun scope => .bind (.accept hI _) fun more => ?_
    split
    · exact ih
    · exact .pure _

theorem onward_le (ts : Tokens) (n : Nat) : Onward ts fun p => n ≤ p.position :=
  ⟨fun _ _ h hj _ => Nat.le_trans h hj, fun _ _ h _ => h⟩

theorem onward_lt (ts : Tokens) (n : Nat) : Onward ts fun p => n < p.position :=
  onward_le ts (n + 1)

/-- A name to import is a token of the file. -/
theorem importedName_holds (p : Progress) :
    Holds ts importedName (fun _ q => p.position < q.position ∧ p.position < ts.size)
      (fun _ _ => True) p := by
  rw [importedName, holds_bind]
  refine holds_take (fun t ht _ => ?_) fun _ _ => trivial
  have hlt : p.position < ts.size := (Array.getElem?_eq_some_iff.mp ht).1
  simp only [holds_ite, holds_pure, holds_fail]
  exact ⟨fun _ => ⟨ts.lt_next _, hlt⟩, fun _ => trivial⟩

/-- A larger bound leaves a group of imports as it is. -/
theorem importGroup_same (start : String) (classes : Bool) {n m : Nat} {p : Progress}
    (hn : ts.size - p.position < n) (hm : ts.size - p.position < m) :
    Same ts (importGroup start classes n scope) (importGroup start classes m scope) p := by
  induction n generalizing m scope p with
  | zero => omega
  | succ n ih =>
    cases m with
    | zero => omega
    | succ m =>
      have hkind : Holds ts kind? (fun _ q => q = p) (fun _ _ => True) p := rfl
      refine .bind rfl hkind fun k q hq => ?_
      subst hq
      split
      · rfl
      · refine .bind rfl ((importsClasses_keeps (onward_le ts q.position)).of_ok (Nat.le_refl _))
          fun members r hr => ?_
        refine .bind rfl (importedName_holds r) fun name u hu => ?_
        have hon := onward_le ts (r.position + 1)
        refine .bind rfl ((addImport_keeps hon _ _).of_ok hu.1) fun scope v hv => ?_
        refine .bind rfl ((Keeps.accept hon _).of_ok hv) fun _ w hw => ?_
        exact ih (by omega) (by omega)

theorem importItem_same (classes : Bool) {n m : Nat} {p : Progress}
    (hn : ts.size - p.position ≤ n) (hm : ts.size - p.position ≤ m) :
    Same ts (importItem classes n scope) (importItem classes m scope) p := by
  refine .bind rfl (importedName_holds p) fun name q hq => ?_
  have hon := onward_le ts (p.position + 1)
  refine .bind rfl ((Keeps.accept hon _).of_ok hq.1) fun grouped r hr => ?_
  split
  · refine .bind rfl ((Keeps.take hon _).of_ok hr) fun _ u hu => ?_
    exact importGroup_same _ _ (by omega) (by omega)
  · rfl

theorem importItem_holds (classes : Bool) (n : Nat) (p : Progress) :
    Holds ts (importItem classes n scope)
      (fun _ q => p.position < q.position ∧ p.position < ts.size) (fun _ _ => True) p := by
  refine holds_bind_of _ (importedName_holds p) fun name q hq => ?_
  exact ((importTail_keeps (onward_lt ts p.position) _ _ _).of_ok hq.1).mono
    (fun _ _ h => ⟨h, hq.2⟩) fun _ _ h => h

/-- A larger bound leaves a list of imports as it is. -/
theorem importList_same (classes : Bool) {n m : Nat} {p : Progress}
    (hn : ts.size - p.position < n) (hm : ts.size - p.position < m) :
    Same ts (importList classes n scope) (importList classes m scope) p := by
  induction n generalizing m scope p with
  | zero => omega
  | succ n ih =>
    cases m with
    | zero => omega
    | succ m =>
      refine .bind (importItem_same classes (by omega) (by omega)) (importItem_holds classes n p)
        fun scope q hq => ?_
      have hon := onward_le ts (p.position + 1)
      refine .bind rfl ((Keeps.accept hon _).of_ok hq.1) fun more r hr => ?_
      split
      · exact ih (by omega) (by omega)
      · rfl

theorem addImport_returns (name : String) (classes : Bool) :
    Returns ts (fun next : Scope => next.kind = scope.kind) (addImport scope name classes) := by
  refine .after fun short => ?_
  cases classes with
  | true => exact .after fun _ => .pure rfl
  | false => exact .pure rfl

theorem importGroup_returns {start : String} {classes : Bool} (bound : Nat) :
    Returns ts (fun next : Scope => next.kind = scope.kind)
      (importGroup start classes bound scope) := by
  induction bound generalizing scope with
  | zero => exact .throw _
  | succ bound ih =>
    refine .after fun k => ?_
    split
    · exact .after fun _ => .pure rfl
    · exact .after fun _ => .after fun _ => .bind (addImport_returns _ _) fun next hnext =>
        .after fun _ => hnext ▸ ih

theorem importItem_returns {classes : Bool} (bound : Nat) :
    Returns ts (fun next : Scope => next.kind = scope.kind) (importItem classes bound scope) := by
  refine .after fun _ => .after fun brace => ?_
  cases brace with
  | true => exact .after fun _ => importGroup_returns bound
  | false => exact addImport_returns _ _

theorem importList_returns {classes : Bool} (bound : Nat) :
    Returns ts (fun next : Scope => next.kind = scope.kind) (importList classes bound scope) := by
  induction bound generalizing scope with
  | zero => exact .throw _
  | succ bound ih =>
    refine .bind (importItem_returns bound) fun next hnext => .after fun comma => ?_
    cases comma with
    | true => exact hnext ▸ ih
    | false => exact .pure hnext

theorem importStatement_returns :
    Returns ts (fun next : Scope => next.kind = scope.kind) (importStatement scope) :=
  .after fun _ => .after fun _ => .after fun _ => .bind (importList_returns _) fun _ h =>
    .after fun _ => .pure h

end

end PhpDoc.Outline
