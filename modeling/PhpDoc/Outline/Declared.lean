import PhpDoc.Declaration.Name
import PhpDoc.Declaration.NativeType
import PhpDoc.Outline.Step
/-!
Declarations: classes and the like, functions, properties and constants. Each is met with the
documentation comment before it, in whose scope its inner statements stand.
-/
namespace PhpDoc.Outline

open Step

def isModifier (k : Kind) : Bool :=
  [.abstractKw, .finalKw, .publicKw, .protectedKw, .privateKw, .staticKw, .readonlyKw].contains k

def isLateBound (ts : Tokens) (i : Nat) : Bool :=
  ts.kind? (ts.next i) = some .doubleColon ||
    (ts.previous? i).map (·.kind) = some .newKw

/-- The position after the modifiers from `i` on. A `static` that stands for a class ends them and is
stepped over; that is told as well. -/
def afterModifiers (ts : Tokens) (i : Nat) : Nat × Bool :=
  if h : i < ts.size then
    if isModifier ts[i].kind then
      if ts[i].kind = .staticKw ∧ isLateBound ts i then (ts.next i, true)
      else afterModifiers ts (ts.next i)
    else (i, false)
  else (i, false)
termination_by ts.size - i
decreasing_by
  have := Tokens.lt_next ts i
  omega

def classStatement (b : Binder) (scope : Scope) (comment : Option DocComment) : Step Unit := do
  let ts ← read
  let i ← position
  let keyword ← current
  let name := (ts.declaredName i).map scope.qualify
  let extended := (ts.extendedNames i).map scope.resolve
  let implemented := (ts.implementedNames i).map scope.resolve
  let (parent, interfaces) :=
    if keyword.kind = .interfaceKw then (none, extended) else (extended.head?, implemented)
  meet (.classLike name parent interfaces)
  let body ← paired keyword.body
  withinGroup scope keyword.parameters
  let inner ← enter scope
    { kind := .classLike, closer := some body.closer, className := name, parentName := parent }
  meetWith (.templates inner) comment
  let inner := b.run inner comment
  meetWith (.classDocs inner) comment
  jump (body.opener + 1)
  within inner body.closer

def captureList : Step Unit := do
  if (← kind?) = some .useKw then
    let _ ← take
    if (← kind?) = some .openParen then
      jump ((← paired (← current).group).closer + 1)
    else fail .malformedCapture

def functionStatement (b : Binder) (scope : Scope) (comment : Option DocComment) : Step Unit := do
  let ts ← read
  let i ← position
  let keyword ← current
  let name := ts.declaredName i
  meet (.function name)
  let inner ← enter scope { kind := .function, closer := keyword.body.map (·.closer) }
  meetWith (.templates inner) comment
  let inner := b.run inner comment
  meet (.functionDocs inner i name comment)
  match keyword.parameters with
  | none => throw ⟨.missingParameters, some i⟩
  | some parameters =>
    let listed ← enter inner { kind := .parameters, closer := some parameters.closer }
    jump (parameters.opener + 1)
    within listed parameters.closer
    captureList
    if keyword.kind = .fnKw then
      skipTo [.doubleArrow]
      let _ ← take
    else
      match keyword.body with
      | none =>
        skipTo [.semicolon]
        let _ ← take
      | some body =>
        let inside ← enter inner { kind := .other, closer := some body.closer }
        jump (body.opener + 1)
        within inside body.closer

def previousSolid (ts : Tokens) : Nat → Nat
  | 0 => 0
  | i + 1 =>
    match ts.kind? i with
    | some .whitespace | some .comment => if i = 0 then 0 else previousSolid ts i
    | _ => i

/-- The names declared from an index on up to the semicolon, each with its token, and the index of the
semicolon; nothing if it does not come before the end of the region. `valued` tells whether the
value of the last name has begun. -/
def variableNames (ts : Tokens) (constant : Bool) (stop : Option Nat) (valued : Bool) (i : Nat) :
    Option (List (Nat × String) × Nat) :=
  if h : i < ts.size ∧ stop.all (i < ·) then
    let next (valued : Bool) (found : List (Nat × String)) :=
      (variableNames ts constant stop valued (ts.pastGroup i)).map fun r => (found ++ r.1, r.2)
    match ts[i].kind with
    | .semicolon => some ([], i)
    | .comma => next false []
    | .equal =>
      let named := previousSolid ts i
      next true
        (if constant && !valued then [(named, (ts[named]?.map (·.text)).getD "")] else [])
    | .variable => next valued (if !constant && !valued then [(i, ts[i].text)] else [])
    | _ => next valued []
  else none
termination_by ts.size - i
decreasing_by
  have := Tokens.lt_pastGroup ts i
  omega

def variableStatement (scope : Scope) (comment : Option DocComment) : Step Unit := do
  let ts ← read
  let i ← position
  let _ ← accept .varKw
  let keyword ← position
  let constant := (← kind?) = some .constKw
  match variableNames ts constant scope.closer false keyword with
  | none => throw ⟨.unterminatedDeclaration, some i⟩
  | some (named, stop) =>
    let names := named.map (·.2)
    meet (.declared names)
    if let some (first, _) := named.head? then
      let native := if constant then ts.typeOfConstant keyword else ts.propertyType first
      meet (.variableDocs scope first names comment native)
    jump (stop + 1)

/-- A declaration with its modifiers. What is declared neither in a class nor as a class, a function
or a constant of the file is left to the statements that follow. -/
def declaration (b : Binder) (scope : Scope) : Step Unit := do
  let ts ← read
  let start ← position
  let (i, lateBound) := afterModifiers ts start
  modify fun p => { p with position := i }
  if !lateBound then
    let kind := (ts.kind? i)
    let classLike := kind.any Kind.isClassLike
    let function := kind.any Kind.isFunction
    let checked := scope.kind = .classLike ∨
      (kind = some .constKw ∧ (scope.kind = .root ∨ scope.kind = .nameSpace))
    if classLike || function || checked then
      let comment := DocComment.before ts start
      meetWith .comment comment
      if classLike then classStatement b scope comment
      else if function then functionStatement b scope comment
      else variableStatement scope comment
    else if i = start then
      let _ ← take

end PhpDoc.Outline
