import PhpDoc.Type.Parser
/-!
The calls that a parser and its lattice answer. A call that reads starts anew, whatever the calls
before it have left behind; only the lattice goes on from one call to the next.
-/
namespace PhpDoc.Parser
open TypedTag (endsType spell remainderOf seesNullDefault seesBound)

variable {α : Type}

def start (scope : Option Scope) (text : String) (wide : Bool) : StateM Parser Unit :=
  modifyThe Parser fun p =>
    let lexing := lex text
    { p with
      subject := { scope := scope.getD {}, wide, text := text.toList, stop := lexing.stop }
      reader := { rest := lexing.lexemes } }

def settle (mark : Reader) : Except Malformed α → StateM Parser (Except Malformed α)
  | .ok a => return .ok a
  | .error f => do
    modifyThe Parser fun p => { p with reader := mark }
    return .error f

/-- Tries a step. If it fails, reading goes on where the step began. -/
def attempt (step : Step α) : StateM Parser (Except Malformed α) := do
  let mark := (← getThe Parser).reader
  settle mark (← step.run)

def setOff (e : Extent) (before : List Lexeme) (t : DocType) : Step TypedTag.Reading := do
  let p ← getThe Parser
  let after := p.reader.rest
  let read := before.take (before.length - after.length)
  match read, endsType e after.head? with
  | first :: _, true =>
    let stop := (read.getLast?.map Lexeme.stop).getD first.stop
    return ⟨t, spell p.subject.text p.reader.words read, (first.start, stop)⟩
  | _, _ => Parse.fail

def readType (e : Extent) : Step TypedTag.Reading := do
  let before ← ahead
  setOff e before (← type)

def readVariable (e : Extent) : Step (String × String) := fun p =>
  match TypedTag.readVariable e p.reader with
  | some (target, reader) => (.ok target, { p with reader })
  | none => (.error {}, p)

def readTarget (e : Extent) : StateM Parser (Option (String × String)) := do
  if e.hasVariable then return (← attempt (readVariable e)).toOption
  else return none

def widened (e : Extent) (reading : Except Malformed TypedTag.Reading)
    (target : Option (String × String)) : StateM Parser (Option DocType) := do
  match reading with
  | .ok r =>
    if e == .default && target.isSome && seesNullDefault (← getThe Parser).reader then
      return some (← Lattice.union (r.type.members ++ [["null"]]))
    else return some r.type
  | .error _ => return none

def remainder : StateM Parser String := do
  let p ← getThe Parser
  return remainderOf p.subject.text p.subject.stop p.reader

def read (scope : Option Scope) (text : String) (e : Extent) (wide : Bool) :
    StateM Parser TypedTag := do
  start scope text wide
  let reading ← attempt (readType e)
  let target ← readTarget e
  let type ← widened e reading target
  return {
    type
    name := target.map (·.1)
    remainder := ← remainder
    nullable := reading.toOption.any (·.type.isNullable)
    modifiers := (target.map (·.2)).getD ""
    spelled := reading.toOption.map (·.spelled)
    span := reading.toOption.map (·.span)
    masks := match reading with
      | .ok _ => 0
      | .error f => f.masks }

def readTemplateName : StateM Parser (Option String) := fun p =>
  let (name, reader) := TypedTag.readTemplateName p.reader
  (name, { p with reader })

def skipBound : StateM Parser Bool := fun p =>
  if seesBound p.reader.rest.head? then
    (true, { p with reader := { p.reader with rest := p.reader.rest.tail } })
  else (false, p)

def readTemplate (scope : Option Scope) (text : String) : StateM Parser TypedTag := do
  start scope text false
  let name ← readTemplateName
  if ← skipBound then
    match ← attempt (readType .type) with
    | .ok r =>
      return {
        type := some r.type
        name
        remainder := ← remainder
        spelled := some r.spelled
        span := some r.span }
    | .error f => return { type := none, name, remainder := ← remainder, masks := f.masks }
  else return { type := some .mixed, name, remainder := ← remainder }

inductive Call
  | read (scope : Option Scope) (text : String) (extent : Extent) (wide : Bool)
  | readTemplate (scope : Option Scope) (text : String)
  | superTypes (base : String)
  | compare (wide narrow : Option String)
  | isObjectLike (name : String)

inductive Answer
  | tag (t : TypedTag)
  | types (supers : List String)
  | holds (b : Bool)
deriving DecidableEq, Repr

def answer : Call → StateM Parser Answer
  | .read scope text e wide => return .tag (← read scope text e wide)
  | .readTemplate scope text => return .tag (← readTemplate scope text)
  | .superTypes base => return .types (← Lattice.superTypes base)
  | .compare wide narrow =>
    return .holds (← Lattice.fits? (wide.map .ofText) (narrow.map .ofText))
  | .isObjectLike name => return .holds (← Lattice.isObjectLike name)

def answers : List Call → StateM Parser (List Answer)
  | [] => return []
  | call :: calls => do
    let a ← answer call
    return a :: (← answers calls)

end PhpDoc.Parser
