import PhpDoc.Scope
import PhpDoc.Type.Normal
import PhpDoc.Type.Reader
/-!
The grammar of type expressions. Reading an expression yields its canonical type: refinements such
as `non-empty-list<int>` or `int<0, max>` are checked and then collapse onto the atom that they
refine. Each construct is one reading step that calls upon the readers of nested expressions only
after it has consumed a lexeme, so nesting is bounded by the number of lexemes.
-/
namespace PhpDoc

/-- What a type expression is read against. A construct whose type cannot be known is `mixed` in
a wide reading and `never` otherwise. -/
structure Context where
  scope : Scope := {}
  hierarchy : Hierarchy := []
  wide : Bool := false

def Context.unknown (c : Context) : DocType :=
  if c.wide then .mixed else .never

namespace Grammar
open Parse

/-- The readers of nested expressions: a whole type, one in parentheses, a type that is no union,
and one without any suffix. -/
structure Nested where
  whole : Parse DocType
  bracketed : Parse DocType
  single : Parse DocType
  basic : Parse DocType

inductive Construct
  | bool
  | int
  | float
  | string
  | array
  | object
  | never
  | plain
  | self
  | parent
  | static
  | callable
  | iterable
  | keyOrValue
  | className
deriving DecidableEq, Repr

def hasEmptySegment : List Char → Bool
  | '\\' :: '\\' :: _ => true
  | _ :: cs => hasEmptySegment cs
  | [] => false

def construct? (scope : Scope) (l : Lexeme) : Option Construct :=
  let pointed := l.text.toList.contains '.'
  if Words.bool.contains l.text then some .bool
  else if Words.int.contains l.text || (l.kind == .number && !pointed) then some .int
  else if Words.float.contains l.text || l.kind == .number then some .float
  else if Words.string.contains l.text || l.kind == .quoted then some .string
  else if Words.array.contains l.text then some .array
  else if l.text == "object" then some .object
  else if Words.never.contains l.text then some .never
  else if Words.plain.contains l.text then some .plain
  else if l.text == "self" then some .self
  else if l.text == "parent" then some .parent
  else if l.text == "static" || l.text == "$this" then some .static
  else if l.text == "callable" || l.text == "\\Closure" ||
    (l.text == "Closure" && scope.nameSpace == "") then some .callable
  else if l.text == "iterable" then some .iterable
  else if l.text == "key-of" || l.text == "value-of" then some .keyOrValue
  else if l.kind == .name && !l.text.toList.contains '-' &&
    !hasEmptySegment l.text.toList && !Words.isReserved l.text then some .className
  else none

def argumentsTo (inner : Nested) : Nat → Parse Unit
  | 0 => fail
  | bound + 1 => do
    let _ ← inner.whole
    if bound = 0 || !(← sees ",") then expect ">"
    else
      skip
      argumentsTo inner bound

def arguments (inner : Nested) (most : Option Nat) : Parse Unit := do
  expect "<"
  argumentsTo inner (most.getD ((← get).rest.length + 1))

def requiredKey : Parse Unit := do
  match ← next? with
  | some l =>
    if l.kind = .name || l.kind = .quoted then
      skip
      accept "?"
      expect ":"
    else fail
  | none => fail

def optionalKey : Parse Unit := do
  match ← next? with
  | some l =>
    let isKey := match l.kind with
      | .name => !l.text.toList.contains '\\'
      | .number => !l.text.toList.contains '.'
      | .quoted => true
      | _ => false
    if isKey then
      if (← seesAt 1 ":") || ((← seesAt 1 "?") && (← seesAt 2 ":")) then
        skip
        accept "?"
        accept ":"
  | none => pure ()

def entriesTo (inner : Nested) (keyed : Bool) : Nat → Parse Unit
  | 0 => fail
  | bound + 1 => do
    if !keyed && (← sees "...") then
      skip
      expect "\x7d"
    else
      if keyed then requiredKey else optionalKey
      let _ ← inner.whole
      if ← sees "," then
        skip
        if ← sees "\x7d" then skip else entriesTo inner keyed bound
      else expect "\x7d"

def shape (inner : Nested) (keyed : Bool) : Parse Unit := do
  expect "\x7b"
  if ← sees "\x7d" then skip
  else entriesTo inner keyed ((← get).rest.length + 1)

def rangeBound (keyword : String) : Parse Unit := do
  match ← next? with
  | some l =>
    if l.text = keyword || (l.kind = .number && !l.text.toList.contains '.') then skip else fail
  | none => fail

def mask (c : Context) (inner : Nested) : Parse Unit := fun s =>
  match inner.basic s with
  | .ok (t, s) => if c.hierarchy.fits (.atom "int") t then .ok ((), s) else .error { masks := 1 }
  | .error e => .error { masks := e.masks + 1 }

def int (c : Context) (inner : Nested) : Parse DocType := do
  let w ← word
  if w = "int" then
    if ← sees "<" then
      skip
      rangeBound "min"
      expect ","
      rangeBound "max"
      expect ">"
  else if w = "int-mask" then
    expect "<"
    let _ ← items (mask c inner) (sees ",")
    expect ">"
  else if w = "int-mask-of" then
    expect "<"
    mask c inner
    expect ">"
  return .atom "int"

def string (c : Context) (inner : Nested) : Parse DocType := do
  let w ← word
  if w = "class-string" then
    if ← sees "<" then
      skip
      let t ← inner.whole
      if c.hierarchy.fits (.atom "object") t then expect ">" else fail
  return .atom "string"

def array (c : Context) (inner : Nested) : Parse DocType := do
  let w ← word
  if ← sees "<" then
    skip
    let first ← inner.whole
    if ← sees "," then
      if w = "list" || w = "non-empty-list" then fail
      if c.hierarchy.fits (.atom "array-key") first then
        skip
        let _ ← inner.whole
      else fail
    expect ">"
  else if ← sees "\x7b" then
    if Text.beginsWith "non-empty-" w then fail
    shape inner false
  return .atom "array"

def static (c : Context) : Parse DocType := do
  skip
  if (← sees "(") && (← seesAt 2 ")") then
    match (← get).rest[1]? with
    | some bound =>
      if Text.beginsWith "\\" bound.text then
        skip
        skip
        skip
        return .ofText ("static(" ++ bound.text ++ ")")
    | none => pure ()
  match c.scope.className with
  | some name => if name = "" then return .atom "static" else return .ofText ("static(" ++ name ++ ")")
  | none => return .atom "static"

def parametersTo (inner : Nested) : Nat → Parse Unit
  | 0 => fail
  | bound + 1 => do
    if ← sees ")" then skip
    else
      let _ ← inner.whole
      accept "&"
      accept "..."
      accept "="
      if (← next?).any (·.kind == .variable) then skip
      if !(← sees ")") then expect ","
      parametersTo inner bound

def callable (inner : Nested) : Parse DocType := do
  let l ← take
  if ← sees "(" then
    skip
    parametersTo inner ((← get).rest.length + 1)
    expect ":"
    let _ ← if ← sees "?" then inner.whole else inner.single
  return .atom (if l.text = "callable" then "callable" else "\\Closure")

def keyOrValue (c : Context) (inner : Nested) : Parse DocType := do
  skip
  expect "<"
  let t ← inner.whole
  if c.hierarchy.fits (.atom "iterable") t || c.hierarchy.fits (.atom "object") t then expect ">"
  else fail
  return c.unknown

def classType (scope : Scope) (name : String) : DocType :=
  if Text.beginsWith "\\" name then .ofText name
  else
    match scope.imports.get? (Text.firstPiece '\\' name), scope.templates.get? name with
    | none, some bound => bound
    | _, _ => .ofText (scope.resolve name)

def className (c : Context) (inner : Nested) : Parse DocType := do
  let l ← take
  if l.text.toList.getLast? = some '\\' then fail
  if ← sees "<" then arguments inner none
  return classType c.scope l.text

def scopeType (name : Option String) (word : String) : DocType :=
  match name with
  | some n => if n = "" then .atom word else .ofText n
  | none => .atom word

def stem (c : Context) (inner : Nested) : Construct → Parse DocType
  | .bool => do
    let _ ← word
    return .atom "bool"
  | .int => int c inner
  | .float => do
    let _ ← word
    return .atom "float"
  | .string => string c inner
  | .array => array c inner
  | .object => do
    skip
    if ← sees "\x7b" then shape inner true
    return .atom "object"
  | .never => do
    let _ ← word
    return .never
  | .plain => do
    let l ← take
    return .atom l.text
  | .self => do
    skip
    return scopeType c.scope.className "self"
  | .parent => do
    skip
    return scopeType c.scope.parentName "parent"
  | .static => static c
  | .callable => callable inner
  | .iterable => do
    skip
    if ← sees "<" then arguments inner (some 2)
    return .atom "iterable"
  | .keyOrValue => keyOrValue c inner
  | .className => className c inner

def constantName : Parse Unit := do
  let named := (← next?).any fun l =>
    match l.text.toList with
    | ch :: _ => ch.isAlpha || ch == '_'
    | [] => false
  if named then skip
  if ← sees "*" then skip
  else if !named then fail

/-- Reads a basic type. Constants can be read off a type whose text has `object` among its
supertypes. -/
def basic (c : Context) (inner : Nested) : Parse DocType := do
  match (← next?).bind (construct? c.scope) with
  | none => fail
  | some k =>
    let t ← stem c inner k
    if (← sees "::") && (c.hierarchy.superTypes t.text).contains "object" then
      skip
      constantName
      return c.unknown
    else return t

def bracketsTo (t : DocType) : Nat → Parse DocType
  | 0 => return t
  | bound + 1 => do
    if (← sees "[") && (← seesAt 1 "]") then
      skip
      skip
      bracketsTo (.atom "array") bound
    else return t

def single (c : Context) (inner : Nested) : Parse DocType := do
  let t ←
    if ← sees "(" then do
      skip
      let t ← inner.bracketed
      expect ")"
      pure t
    else basic c inner
  bracketsTo t (← get).rest.length

/-- Whether the next sign joins two types rather than marking a variable passed by reference. -/
def joins : Parse Bool := do
  if ← sees "&" then
    match (← get).rest[1]? with
    | none => return false
    | some l => return !(["...", "=", ",", ")"].contains l.text) && l.kind != .variable
  else return false

/-- Reads an intersection and yields the members that it adds to a union. A union cannot be
intersected with anything. -/
def intersection (c : Context) (inner : Nested) : Parse (List Member) := do
  let parts ← items (single c inner) joins
  match parts, parts.any DocType.isUnion with
  | [t], true => return t.members
  | _, true => fail
  | _, false =>
    match parts.flatMap DocType.atoms with
    | [a] => return [[a]]
    | as =>
      match c.hierarchy.intersection as with
      | some m => return [m]
      | none => fail

def whole (c : Context) (inner : Nested) : Parse DocType := do
  if ← sees "?" then
    skip
    let t ← single c inner
    return c.hierarchy.union (t.members ++ [["null"]])
  else
    let members ← items (intersection c inner) (sees "|")
    return c.hierarchy.union members.flatten

def bracketed (c : Context) (inner : Nested) : Parse DocType := do
  if (← next?).any (·.kind == .variable) && (← seesAt 1 "is") then
    skip
    skip
    let _ ← inner.whole
    expect "?"
    let first ← inner.whole
    expect ":"
    let second ← inner.whole
    return c.hierarchy.union (first.members ++ second.members)
  else whole c inner

def nested (c : Context) : Nat → Nested
  | 0 => ⟨fail, fail, fail, fail⟩
  | depth + 1 =>
    let inner := nested c depth
    ⟨whole c inner, bracketed c inner, single c inner, basic c inner⟩

/-- Reads a type; no expression is nested deeper than it has lexemes. -/
def type (c : Context) : Parse DocType := do
  (nested c ((← get).rest.length + 1)).whole

end Grammar
end PhpDoc
