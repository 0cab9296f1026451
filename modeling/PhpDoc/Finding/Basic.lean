import PhpDoc.Finding.Code
import PhpDoc.Text.Quoted
/-!
Findings and the forms in which a single one is printed.
-/
namespace PhpDoc

/-- A place in a file; a column of zero stands for the whole line. -/
structure Location where
  file : String := ""
  line : Int := 0
  column : Int := 0
deriving DecidableEq, Repr, Inhabited

def Location.text (l : Location) : String :=
  l.file ++ ":" ++ toString l.line ++ (if l.column = 0 then "" else ":" ++ toString l.column)

structure Finding where
  code : String
  message : String
  severity : Severity
  location : Location
  fixable : Bool := false
deriving DecidableEq, Repr, Inhabited

namespace Finding

def fullLine (f : Finding) : String :=
  f.location.text ++ ": " ++ f.severity.label ++ ": " ++ f.message ++ " [" ++ f.code ++ "]"

def briefLine (f : Finding) : String :=
  "[" ++ f.location.file ++ ":" ++ toString f.location.line ++ "]: (" ++ f.severity.label ++ ") " ++
    f.message ++ " [" ++ f.code ++ "]"

def addon : String := "phpdoc-typecheck"

def json (f : Finding) : String :=
  let fields : List (String × String) := [
    ("file", Text.jsonString f.location.file),
    ("linenr", toString f.location.line),
    ("column", toString f.location.column),
    ("severity", Text.jsonString f.severity.label),
    ("message", Text.jsonString f.message),
    ("addon", Text.jsonString addon),
    ("errorId", Text.jsonString f.code),
    ("extra", Text.jsonString (if f.fixable then "fixable" else ""))]
  "\x7b" ++ ", ".intercalate (fields.map fun p => Text.jsonString p.1 ++ ": " ++ p.2) ++ "\x7d"

end Finding
end PhpDoc
