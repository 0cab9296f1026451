import PhpDoc.Check.Event
import PhpDoc.Command.CheckFiles
/-!
The commands that read and compare types.
-/
namespace PhpDoc
namespace Command

variable {m : Type → Type} [Monad m]

def namespaceOf (name : Option String) : String :=
  match name with
  | none | some "" => ""
  | some n =>
    let bare := (n.toList.dropWhile (· = '\\')).reverse.dropWhile (· = '\\')
    "\\" ++ String.ofList bare.reverse

def readType (h : Host m) (c : Context) (text : String) : m TypedTag := do
  let typed := TypedTag.read c text
  for e in Event.reading text typed do
    if let .note entry _ := e then
      h.log entry
  return typed

def parseType (h : Host m) (text : String) (wide : Bool) (name : Option String) : m Nat := do
  let scope : Scope := { nameSpace := namespaceOf name }
  let typed ← readType h { scope, wide } text
  match typed.type with
  | none =>
    h.tell .error ("Malformed type: " ++ text)
    return statusErrors
  | some t =>
    h.print (t.text ++ "\n")
    match typed.spelled, typed.span with
    | some spelled, some (start, stop) =>
      if Text.slice text start stop ≠ spelled then
        h.print ("house style: " ++ spelled ++ "\n")
    | _, _ => pure ()
    if typed.remainder ≠ "" then
      h.print ("remainder: " ++ typed.remainder ++ "\n")
    return statusOk

def compare (h : Host m) (wide narrow : String) : m Nat := do
  let wideType := (← readType h { wide := true } wide).type
  let narrowType := (← readType h {} narrow).type
  match wideType, narrowType with
  | none, _ =>
    h.tell .error ("Malformed wide type: " ++ wide)
    return statusErrors
  | _, none =>
    h.tell .error ("Malformed narrow type: " ++ narrow)
    return statusErrors
  | some w, some n =>
    let fits := Hierarchy.fits [] w n
    h.print (n.text ++ (if fits then " fits " else " does not fit ") ++ w.text ++ "\n")
    return if fits then statusOk else statusErrors

def answer (h : Host m) : Request → m (Option Nat)
  | .check paths format config overrides => check h paths format config overrides
  | .parseType text wide name => some <$> parseType h text wide name
  | .compare wide narrow => some <$> compare h wide narrow

end Command
end PhpDoc
