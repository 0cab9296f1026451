import PhpDoc.Source.Declare
import PhpDoc.Text.Blank
/-!
Reading facts about a declaration off its tokens. Fillers, that is white space and comments, never
count; text is given as written but without comments.
-/
namespace PhpDoc.Tokens

def solid? (ts : Tokens) (i : Nat) : Option Nat :=
  if h : i < ts.size then
    if ts[i].kind.isFiller then solid? ts (i + 1) else some i
  else none
termination_by ts.size - i

def segment (ts : Tokens) (start stop : Nat) : List Token :=
  (ts.extract start stop).toList

def textOf (ts : Tokens) (start stop : Nat) : String :=
  Text.trim (String.join (((ts.segment start stop).filter fun t =>
    !t.kind.isFiller || t.kind == .whitespace).map (·.text)))

def nonempty? (s : String) : Option String :=
  if s = "" then none else some s

/-- The index past the group that opens at `i`, where a keyword with a parameter list counts as
opening it; else the next index. -/
def pastGroup (ts : Tokens) (i : Nat) : Nat :=
  match ts[i]? with
  | some t => past i (t.parameters <|> t.group)
  | none => i + 1

theorem lt_pastGroup (ts : Tokens) (i : Nat) : i < ts.pastGroup i := by
  unfold pastGroup
  split
  · exact lt_past _ _
  · omega

end PhpDoc.Tokens
