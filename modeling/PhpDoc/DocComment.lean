import PhpDoc.ScanError
import PhpDoc.Source.Token
/-!
Documentation comments as tags. A tag has the lines from its name to the next tag, each with the
token that holds its text; the text before the first tag counts as a tag without a name.
-/
namespace PhpDoc

structure TagLine where
  text : String := ""
  token : Option Nat := none
deriving DecidableEq, Repr, Inhabited

structure Tag where
  name : String
  place : Nat
  lines : List TagLine
deriving DecidableEq, Repr, Inhabited

namespace Tag

def text (t : Tag) : String :=
  "\n".intercalate (t.lines.map (·.text))

def tokens (t : Tag) : List (Option Nat) :=
  t.lines.map (·.token)

end Tag

structure DocComment where
  place : Nat
  tags : List Tag
deriving DecidableEq, Repr, Inhabited

namespace DocComment

def named (c : DocComment) (name : String) : List Tag :=
  c.tags.filter (·.name == name)

def allNamed (c : DocComment) : List Tag :=
  c.tags.filter (·.name != "")

def names (c : DocComment) : List String :=
  (c.tags.map (·.name)).eraseDups

abbrev Part := Nat × Token

def isBreak (t : Token) : Bool :=
  t.kind == .docBlank && ["\n", "\r\n", "\r"].contains t.text

def upToTag (parts : List Part) : List Part :=
  parts.takeWhile fun p => p.2.kind != .docTag

/-- The lines of some parts. `line` is the line that has been begun, if there is one; text begins a
line or fills the one begun, and a line break ends it. -/
def linesFrom (line : Option TagLine) : List Part → List TagLine
  | [] => line.toList
  | (i, t) :: parts =>
    if t.kind = .docText then linesFrom (some ⟨t.text, some i⟩) parts
    else if isBreak t then line.getD {} :: linesFrom none parts
    else linesFrom line parts

def dropEmptyEnd : List TagLine → List TagLine
  | [] => []
  | l :: ls =>
    match dropEmptyEnd ls with
    | [m] => if m.text = "" then [l] else [l, m]
    | ms => l :: ms

def dropEmptyStart : List TagLine → List TagLine
  | [] => []
  | [l] => [l]
  | l :: ls => if l.text = "" then dropEmptyStart ls else l :: ls

def tagOf (name : String) (place : Nat) (parts : List Part) : Tag :=
  let lines := dropEmptyEnd (linesFrom (some {}) (upToTag parts))
  ⟨name, place, if name = "" then dropEmptyStart lines else lines⟩

def tagsFrom : List Part → List Tag
  | [] => []
  | (i, t) :: parts =>
    if t.kind = .docTag then tagOf t.text i parts :: tagsFrom parts else tagsFrom parts

def ofParts (place : Nat) (parts : List Part) : DocComment :=
  let leading := tagOf "" place parts
  ⟨place, (if leading.lines.any (·.text != "") then [leading] else []) ++ tagsFrom parts⟩

def between (ts : Tokens) (start stop : Nat) : List Part :=
  (List.range' start (stop - start)).filterMap fun i => ts[i]?.map fun t => (i, t)

def read (ts : Tokens) (opener : Nat) : Except ScanError DocComment :=
  match ts[opener]?.bind (·.commentEnd) with
  | some closer => .ok (ofParts opener (between ts (opener + 1) closer))
  | none => .error ⟨.unterminatedComment, some opener⟩

def openerBefore (ts : Tokens) : Nat → Option Nat
  | 0 => none
  | i + 1 => if ts.kind? i = some .docOpen then some i else openerBefore ts i

/-- The start of the documentation comment that belongs to the token at an index: only white space,
ordinary comments and attributes may stand in between. -/
def openerOf (ts : Tokens) : Nat → Option Nat
  | 0 => none
  | i + 1 =>
    match ts[i]? with
    | none => none
    | some t =>
      match t.kind, t.group with
      | .whitespace, _ => openerOf ts i
      | .comment, _ => openerOf ts i
      | .docClose, _ => openerBefore ts i
      | .closeBracket, some g =>
        if g.opener ≤ i ∧ ts.kind? g.opener = some .attributeOpen then openerOf ts g.opener
        else none
      | _, _ => none
termination_by i => i
decreasing_by all_goals omega

def before (ts : Tokens) (i : Nat) : Option DocComment :=
  (openerOf ts i).bind fun opener => (read ts opener).toOption

end DocComment
end PhpDoc
