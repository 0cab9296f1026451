import PhpDoc.Finding.Basic
import PhpDoc.Finding.FixError
import PhpDoc.Source.Token
import PhpDoc.Text.Fill
/-!
The report on one file: the findings, each held once, and the text of the tokens with the fixes
made so far. Fixes are grouped in changesets, which take effect as a whole or not at all.
-/
namespace PhpDoc

/-- Replacements that are not made yet, in the order in which they were asked for: the index of a
token and its new text. -/
abbrev Changeset := List (Nat × String)

/-- A report. `fixing` tells whether fixes are wanted, and `disabled` are codes that are never held. -/
structure Report where
  file : String
  tokens : Tokens
  fixing : Bool := false
  disabled : List String := []
  findings : List Finding := []
  texts : Array String := tokens.map (·.text)
  changeset : Option Changeset := none
  fixes : Nat := 0
deriving Repr, Inhabited

/-- Something that fails: why, and the report that it leaves. -/
structure Failure (ε : Type) where
  reason : ε
  report : Report

def Failure.map {ε δ : Type} (f : ε → δ) (x : Failure ε) : Failure δ :=
  ⟨f x.reason, x.report⟩

namespace Report

/-- The place of a token. An index outside of the file counts as the nearest one inside. -/
def locate (r : Report) (i : Int) : Location :=
  match r.tokens[min i.toNat (r.tokens.size - 1)]? with
  | some t => ⟨r.file, t.line, t.column⟩
  | none => ⟨r.file, 1, 1⟩

def sameFinding (f g : Finding) : Bool :=
  f.code == g.code && f.location.line == g.location.line &&
    f.location.column == g.location.column && f.message == g.message

def admits (r : Report) (f : Finding) : Bool :=
  !r.disabled.contains f.code && !r.findings.any (sameFinding f)

def add (r : Report) (f : Finding) : Report :=
  if r.admits f then { r with findings := r.findings ++ [f] } else r

def findingAt (r : Report) (severity : Severity) (fixable : Bool) (template : String) (i : Int)
    (code : String) (args : List String) : Finding :=
  ⟨code, Text.fill template args, severity, r.locate i, fixable⟩

def count (r : Report) (s : Severity) : Nat :=
  r.findings.countP (·.severity == s)

def beginChanges (r : Report) : Except (Failure FixError) Report :=
  match r.changeset with
  | some _ => .error ⟨.alreadyOpen, r⟩
  | none => .ok { r with changeset := some [] }

/-- The replacements that put a text in the place of some tokens: the first one gets it, the others
become empty. -/
def replacements (first last : Nat) (text : String) : Changeset :=
  (first, text) :: (List.range' (first + 1) (last - first)).map fun i => (i, "")

def replace (r : Report) (first last : Int) (text : String) : Except (Failure FixError) Report :=
  match r.changeset with
  | none => .error ⟨.notOpen, r⟩
  | some changes =>
    if 0 ≤ first ∧ first ≤ last ∧ last < r.tokens.size then
      .ok { r with changeset := some (changes ++ replacements first.toNat last.toNat text) }
    else .error ⟨.outOfBounds first last, r⟩

/-- The texts after some replacements, the later ones overriding the earlier ones. -/
def applyTo (texts : Array String) (changes : Changeset) : Array String :=
  changes.foldl (fun texts c => texts.setIfInBounds c.1 c.2) texts

def commit (r : Report) : Except (Failure FixError) Report :=
  match r.changeset with
  | none => .error ⟨.notOpen, r⟩
  | some changes =>
    .ok { r with texts := applyTo r.texts changes, changeset := none, fixes := r.fixes + 1 }

def rollback (r : Report) : Report :=
  { r with changeset := none }

def source (r : Report) : String :=
  String.join r.texts.toList

end Report
end PhpDoc
