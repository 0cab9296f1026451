import PhpDoc.Check.Event
import PhpDoc.Check.Template
/-!
The documentation of properties and constants, against the type written before them.
-/
namespace PhpDoc.Check

/-- Reads a type written in code, where what cannot be known is taken to be anything. -/
def native (h : Hierarchy) (scope : Scope) (text : Option String) : Option DocType × List Event :=
  match text with
  | none | some "" => (none, [])
  | some s =>
    let typed := TypedTag.read { scope, hierarchy := h, wide := true } s
    (typed.type, Event.reading s typed)

def misplacedOnVariable : List String :=
  ["@param", "@return"] ++ templateNames

def variableTag (h : Hierarchy) (scope : Scope) (names : List String) (native : Option DocType)
    (t : Tag) : List Event :=
  let typed := TypedTag.read { scope, hierarchy := h } t.text .variable
  Event.reading t.text typed ++
    (if typed.type.isNone then [.onTag .varType t]
      else
        Event.when (!h.fits? native typed.type) (.onTag .varTypeMismatch t) ++
        Event.spelling .varTypeStyle t typed) ++
    Event.when (typed.name.any fun n => !names.contains n) (.onTag .varNameMismatch t)

def variableDocs (h : Hierarchy) (scope : Scope) (place : Nat) (names : List String)
    (comment : Option DocComment) (written : Option String) : List Event :=
  match comment with
  | none => [.finding .varDocMissing place []]
  | some c =>
    let tags := c.named "@var"
    let (native, notes) := native h scope written
    Event.when tags.isEmpty (.finding .varMissing place []) ++
      (tags[1]?.toList.map fun t => .onTag .varMultiple t) ++
      notes ++
      tags.flatMap (variableTag h scope names native) ++
      Event.misplaced c misplacedOnVariable

end PhpDoc.Check
