import PhpDoc.Check.Variable
import PhpDoc.Declaration.NativeType
import PhpDoc.Declaration.Parameter
/-!
The documentation of a function: its parameters, by position if there are as many as documented and
else by name, and what it returns.
-/
namespace PhpDoc.Check

structure ParamTag where
  number : Nat
  tag : Tag
  typed : TypedTag

def ParamTag.args (p : ParamTag) : List String :=
  [toString p.number]

def paramTags (h : Hierarchy) (scope : Scope) (tags : List Tag) : List ParamTag :=
  tags.zipIdx.map fun (t, i) =>
    ⟨i + 1, t, TypedTag.read { scope, hierarchy := h } t.text .modifiers⟩

def paramTag (p : ParamTag) : List Event :=
  Event.reading p.tag.text p.typed ++
    (if p.typed.type.isNone then [.onTag .funParamType p.tag p.args]
      else Event.spelling .funParamTypeStyle p.tag p.typed p.args) ++
    Event.when p.typed.name.isNone (.onTag .funParamName p.tag p.args)

def paired (params : List Parameter) (tags : List ParamTag) : List (ParamTag × Parameter) :=
  if tags.length = params.length then tags.zip params
  else
    tags.filterMap fun p =>
      (p.typed.name.bind fun n => params.reverse.find? fun q => q.name == n).map fun q => (p, q)

/-- Whether the signs in a tag contradict the parameter: further arguments have to be in both or in
neither, and a reference only where the parameter is one. -/
def signsDiffer (typed : TypedTag) (q : Parameter) : Bool :=
  ["...", "&..."].contains typed.modifiers != q.variadic ||
    (["&", "&..."].contains typed.modifiers && !q.byReference)

def paramPair (h : Hierarchy) (scope : Scope) (positional : Bool) (p : ParamTag) (q : Parameter) :
    List Event :=
  let native := TypedTag.read { scope, hierarchy := h, wide := true } q.content .default
  Event.when (positional && p.typed.name.any (· != q.name))
      (.onTag .funParamNameMismatch p.tag p.args) ++
    Event.reading q.content native ++
    Event.when (p.typed.type.isSome && !h.fits? native.type p.typed.type)
      (.onTag .funParamTypeMismatch p.tag p.args) ++
    Event.when (p.typed.name.isSome && signsDiffer p.typed q)
      (.onTag .funParamPassSplatMismatch p.tag p.args)

def params (h : Hierarchy) (scope : Scope) (place : Nat) (params : List Parameter)
    (tags : List Tag) : List Event :=
  let read := paramTags h scope tags
  let positional := read.length = params.length
  read.flatMap paramTag ++
    if read.isEmpty then []
    else
      Event.when (!positional) (.finding .funParamCount place []) ++
        (paired params read).flatMap fun (p, q) => paramPair h scope positional p q

def missingParams (h : Hierarchy) (scope : Scope) (place : Nat) (params : List Parameter)
    (tags : List Tag) : List Event :=
  let read := paramTags h scope tags
  let documented := read.filterMap (·.typed.name)
  read.flatMap (fun p => Event.reading p.tag.text p.typed true) ++
    (params.filter fun q => !documented.contains q.name).map fun q =>
      .finding .funParamMissing place [q.name]

def returnTag (h : Hierarchy) (scope : Scope) (native : Option DocType) (t : Tag) : List Event :=
  let typed := TypedTag.read { scope, hierarchy := h } t.text
  Event.reading t.text typed ++
    if typed.type.isNone then [.onTag .funRetType t]
    else
      Event.when (!h.fits? native typed.type) (.onTag .funRetTypeMismatch t) ++
        Event.spelling .funRetTypeStyle t typed

def returnsValue (name : String) (native : Option DocType) : Bool :=
  !(["__construct", "__destruct"].contains (Text.fold name)) &&
    !native.any fun t => t == .atom "void" || t == .never

/-- What there is to say about the function at a token. Only one with a name needs a comment, in
which all is documented. -/
def function (h : Hierarchy) (ts : Tokens) (scope : Scope) (place : Nat) (name : Option String)
    (comment : Option DocComment) : List Event :=
  let listed := Parameter.list ts place
  match comment with
  | none => Event.when name.isSome (.finding .funDocMissing place [])
  | some c =>
    let tags := c.named "@param"
    let returns := c.named "@return"
    let (native, notes) := native h scope (ts.returnType place)
    params h scope place listed tags ++
      (if name.isSome then missingParams h scope place listed tags else []) ++
      notes ++
      (returns[1]?.toList.map fun t => .onTag .funRetMultiple t) ++
      returns.flatMap (returnTag h scope native) ++
      Event.when (returns.isEmpty && name.any (returnsValue · native))
        (.finding .funRetMissing place []) ++
      Event.misplaced c ["@var"]

end PhpDoc.Check
