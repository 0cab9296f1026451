import PhpDoc.Outline.Visit
import PhpDoc.Source.Cursor
/-!
Steps of a walk. A step moves the position in the file and notes what is met; it may fail, and then
the position and the notes stay as they are at that moment.
-/
namespace PhpDoc.Outline

/-- What a statement holds: something met, or a region with statements of its own, which starts at
one token and ends before another. -/
inductive Item
  | visit (v : Visit)
  | region (scope : Scope) (start stop : Nat)
deriving Repr, Inhabited

structure Progress where
  position : Nat
  items : List Item := []
deriving Repr, Inhabited

/-- A step over the tokens of a file. -/
abbrev Step := ReaderT Tokens (ExceptT ScanError (StateM Progress))

namespace Step

def position : Step Nat :=
  return (← get).position

def current : Step Token := do
  match (← read)[← position]? with
  | some t => return t
  | none => throw ⟨.endOfFile, none⟩

def kind? : Step (Option Kind) :=
  return (← read).kind? (← position)

/-- Moves to an index, or to the first token after it that matters. -/
def jump (i : Nat) : Step Unit := do
  let i := (← read).atOrAfter i
  modify fun p => { p with position := i }

def take (expected : Option Kind := none) : Step Token := do
  match (← read).advance (← position) expected with
  | .ok (t, i) =>
    modify fun p => { p with position := i }
    return t
  | .error e => throw e

def accept (k : Kind) : Step Bool := do
  if (← kind?) = some k then
    let _ ← take
    return true
  else return false

def note (item : Item) : Step Unit :=
  modify fun p => { p with items := p.items ++ [item] }

def meet (v : Visit) : Step Unit :=
  note (.visit v)

def meetWith (visit : DocComment → Visit) : Option DocComment → Step Unit
  | some c => meet (visit c)
  | none => pure ()

def fail {α : Type} (fault : ScanFault) : Step α := do
  throw ⟨fault, some (← position)⟩

def paired (g : Option Group) : Step Group :=
  match g with
  | some g => return g
  | none => fail .unbalanced

def within (scope : Scope) (stop : Nat) : Step Unit := do
  note (.region scope (← position) stop)
  jump (stop + 1)

def withinGroup (scope : Scope) : Option Group → Step Unit
  | some g => do
    jump (g.opener + 1)
    within scope g.closer
  | none => pure ()

def enter (scope : Scope) (r : Region) : Step Scope :=
  match scope.enter r with
  | .ok inner => return inner
  | .error e => throw e

def seek (ts : Tokens) (kinds : List Kind) (i : Nat) : Nat :=
  if h : i < ts.size then
    if kinds.contains ts[i].kind then i else seek ts kinds (ts.next i)
  else i
termination_by ts.size - i
decreasing_by
  have := Tokens.lt_next ts i
  omega

def skipTo (kinds : List Kind) : Step Unit := do
  let i := seek (← read) kinds (← position)
  modify fun p => { p with position := i }
  if (← read).size ≤ i then
    throw ⟨.endOfFile, none⟩

end Step
end PhpDoc.Outline
