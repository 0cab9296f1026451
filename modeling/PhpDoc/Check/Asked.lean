import PhpDoc.Check.ClassLike
import PhpDoc.Check.Function
import PhpDoc.Config
/-!
The checks as a configuration asks for them. Whether spelling is checked is asked where a type has been
read, and whether documentation may be missing where it is looked for.
-/
namespace PhpDoc.Check.Asked

variable (config : Config) (h : Hierarchy) (scope : Scope)

def spelling (code : Code) (t : Tag) (typed : TypedTag) (args : List String := []) : List Event :=
  if config.checksStyle then Event.spelling code t typed args else []

def template (t : Tag) : List Event :=
  let typed := readTemplate h scope t
  Event.reading t.text typed ++
    match typed.name, typed.type with
    | none, _ => [.onTag .templateName t]
    | some _, none => [.onTag .templateType t]
    | some _, some _ => spelling config .templateTypeStyle t typed

def templates (scope : Scope) : List Tag → List Event
  | [] => []
  | t :: ts => template config h scope t ++ templates (bindTemplate h scope t) ts

def property (t : Tag) : List Event :=
  let typed := TypedTag.read { scope, hierarchy := h } t.text .variable
  Event.reading t.text typed ++
    (if typed.type.isNone then [.onTag .classPropType t]
      else spelling config .classPropTypeStyle t typed) ++
    Event.when typed.name.isNone (.onTag .classPropName t)

def classLike (c : DocComment) : List Event :=
  (propertyNames.flatMap c.named).flatMap (property config h scope) ++
    Event.misplaced c misplacedOnClass

def variableTag (names : List String) (native : Option DocType) (t : Tag) : List Event :=
  let typed := TypedTag.read { scope, hierarchy := h } t.text .variable
  Event.reading t.text typed ++
    (if typed.type.isNone then [.onTag .varType t]
      else
        Event.when (!h.fits? native typed.type) (.onTag .varTypeMismatch t) ++
        spelling config .varTypeStyle t typed) ++
    Event.when (typed.name.any fun n => !names.contains n) (.onTag .varNameMismatch t)

def variableDocs (place : Nat) (names : List String) (comment : Option DocComment)
    (written : Option String) : List Event :=
  match comment with
  | none => Event.when config.checksDocs (.finding .varDocMissing place [])
  | some c =>
    let tags := c.named "@var"
    let (native, notes) := native h scope written
    Event.when (tags.isEmpty && config.checksDocs) (.finding .varMissing place []) ++
      (tags[1]?.toList.map fun t => .onTag .varMultiple t) ++
      notes ++
      tags.flatMap (variableTag config h scope names native) ++
      Event.misplaced c misplacedOnVariable

def paramTag (p : ParamTag) : List Event :=
  Event.reading p.tag.text p.typed ++
    (if p.typed.type.isNone then [.onTag .funParamType p.tag p.args]
      else spelling config .funParamTypeStyle p.tag p.typed p.args) ++
    Event.when p.typed.name.isNone (.onTag .funParamName p.tag p.args)

def params (place : Nat) (params : List Parameter) (tags : List Tag) : List Event :=
  let read := paramTags h scope tags
  let positional := read.length = params.length
  read.flatMap (paramTag config) ++
    if read.isEmpty then []
    else
      Event.when (!positional) (.finding .funParamCount place []) ++
        (paired params read).flatMap fun (p, q) => paramPair h scope positional p q

def returnTag (native : Option DocType) (t : Tag) : List Event :=
  let typed := TypedTag.read { scope, hierarchy := h } t.text
  Event.reading t.text typed ++
    if typed.type.isNone then [.onTag .funRetType t]
    else
      Event.when (!h.fits? native typed.type) (.onTag .funRetTypeMismatch t) ++
        spelling config .funRetTypeStyle t typed

def function (ts : Tokens) (place : Nat) (name : Option String) (comment : Option DocComment) :
    List Event :=
  let listed := Parameter.list ts place
  let checksDocs := config.checksDocs && name.isSome
  match comment with
  | none => Event.when checksDocs (.finding .funDocMissing place [])
  | some c =>
    let tags := c.named "@param"
    let returns := c.named "@return"
    let (native, notes) := native h scope (ts.returnType place)
    params config h scope place listed tags ++
      (if checksDocs then missingParams h scope place listed tags else []) ++
      notes ++
      (returns[1]?.toList.map fun t => .onTag .funRetMultiple t) ++
      returns.flatMap (returnTag config h scope native) ++
      Event.when (checksDocs && returns.isEmpty && name.any (returnsValue · native))
        (.finding .funRetMissing place []) ++
      Event.misplaced c ["@var"]

end PhpDoc.Check.Asked
