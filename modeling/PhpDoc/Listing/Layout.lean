import PhpDoc.Listing.Tally
import PhpDoc.Text.Lines
/-!
How findings are listed: in one of three formats, of which the first may be coloured; then every
finding is followed by its source line and a caret under the column.
-/
namespace PhpDoc

inductive Format
  | text
  | cppcheck
  | json
deriving DecidableEq, Repr, Inhabited

namespace Format

def all : List Format := [.text, .cppcheck, .json]

def label : Format → String
  | .text => "text"
  | .cppcheck => "cppcheck"
  | .json => "json"

def ofLabel? (name : String) : Option Format :=
  all.find? fun f => f.label == name

def unknownMessage (name : String) : String :=
  "unknown output format " ++ Text.quoted name

def unnamedMessage : String :=
  "unknown output format " ++ Text.quotedList []

end Format

/-- A format, and how colours are shown if they are wanted; only the first format has any. -/
structure Layout where
  format : Format := .text
  colour : Option Styler := none
deriving Inhabited

namespace Layout

def gutter (n : Int) : String :=
  let digits := (toString n).toList
  String.ofList (List.replicate (5 - digits.length) ' ' ++ digits)

/-- The lines under a coloured finding: its source line and the caret, if there is such a line. -/
def excerpt (styled : Styler) (lines : List String) (f : Finding) : List String :=
  let l := f.location
  if 0 < l.line then
    match lines[l.line.toNat - 1]? with
    | some shown =>
      let pipe := styled .bold (some .blue) "|"
      let caret := styled .bold (some f.severity.colour) "^"
      let pad := String.ofList (List.replicate (l.column.toNat - 1) ' ')
      [styled .bold (some .blue) (gutter l.line) ++ " " ++ pipe ++ " " ++ shown,
        "      " ++ pipe ++ " " ++ pad ++ caret]
    | none => []
  else []

def coloured (styled : Styler) (lines : List String) (f : Finding) : List String :=
  (styled .bold none f.location.text ++ ": " ++
    styled .bold (some f.severity.colour) f.severity.label ++ ": " ++ f.message ++ " " ++
    styled .dark none ("[" ++ f.code ++ "]")) :: excerpt styled lines f

def finding (y : Layout) (lines : List String) (f : Finding) : String :=
  match y.format, y.colour with
  | .json, _ => f.json ++ "\n"
  | .cppcheck, _ => f.briefLine ++ "\n"
  | .text, some styled => "\n".intercalate (coloured styled lines f) ++ "\n"
  | .text, none => f.fullLine ++ "\n"

def le (f g : Finding) : Bool :=
  f.location.line < g.location.line ||
    (f.location.line == g.location.line && f.location.column ≤ g.location.column)

/-- The findings of a file as they are listed, in the order of the source text; of two at the same
place the one held first comes first. -/
def report (y : Layout) (r : Report) (source : String) : String :=
  let lines := Text.displayLines source
  String.join ((r.findings.mergeSort le).map (y.finding lines))

def summary (y : Layout) (t : Tally) : String :=
  match y.format, y.colour with
  | .text, some styled => styled .bold (some t.colour) t.line ++ "\n"
  | .text, none => t.line ++ "\n"
  | _, _ => ""

end Layout
end PhpDoc
