import PhpDoc.Finding.Report
/-!
Counting what was found: the numbers of errors and warnings, of files looked at and of fixes made,
and the line that sums them up.
-/
namespace PhpDoc

structure Tally where
  errors : Nat := 0
  warnings : Nat := 0
  files : Nat := 0
  fixed : Nat := 0
deriving DecidableEq, Repr, Inhabited

namespace Tally

def record (t : Tally) : Severity → Tally
  | .error => { t with errors := t.errors + 1 }
  | .warning => { t with warnings := t.warnings + 1 }

def total (t : Tally) : Nat :=
  t.errors + t.warnings

def addReport (t : Tally) (r : Report) : Tally :=
  r.findings.foldl (fun t f => t.record f.severity)
    { t with files := t.files + 1, fixed := t.fixed + r.fixes }

def counted (n : Nat) (thing ending : String) : String :=
  toString n ++ " " ++ thing ++ (if n = 1 then "" else ending)

def severities (t : Tally) : List String :=
  (if t.errors = 0 then [] else [counted t.errors "error" "s"]) ++
    (if t.warnings = 0 then [] else [counted t.warnings "warning" "s"])

def line (t : Tally) : String :=
  let found := if t.total = 0 then "no findings" else ", ".intercalate t.severities
  found ++ " in " ++ counted t.files "file" "s" ++
    (if t.fixed = 0 then "" else ", " ++ counted t.fixed "fix" "es" ++ " applied")

def colour (t : Tally) : Colour :=
  if t.errors ≠ 0 then .red else if t.total ≠ 0 then .yellow else .green

end Tally
end PhpDoc
