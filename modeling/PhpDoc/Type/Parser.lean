import PhpDoc.Type.Lattice
import PhpDoc.Type.TypedTag
/-!
A parser serves one call after another. Between the calls it keeps its lattice, what the last call
was about, and how far that call has read; a reading that fails stops wherever it is. The grammar is
the one of type expressions, with each question asked of the lattice in its turn.
-/
namespace PhpDoc

structure Subject where
  scope : Scope := {}
  wide : Bool := false
  text : List Char := []
  stop : Nat := 0

/-- A parser with its lattice, what its last call is about, and the lexemes still ahead. -/
structure Parser where
  lattice : Lattice
  subject : Subject := {}
  reader : Reader := { rest := [] }

namespace Parser

def fresh (h : Hierarchy) : Parser :=
  { lattice := { hierarchy := h } }

def context (p : Parser) : Context :=
  { scope := p.subject.scope, hierarchy := p.lattice.hierarchy, wide := p.subject.wide }

/-- A step of a parser, which may find the input malformed and leaves the parser there. -/
abbrev Step := ExceptT Malformed (StateM Parser)

instance : MonadLift Parse Step where
  monadLift step := fun p =>
    match step p.reader with
    | .ok (a, reader) => (.ok a, { p with reader })
    | .error f => (.error f, p)

instance : MonadLift Query (StateM Parser) where
  monadLift query := fun p =>
    let (a, lattice) := query p.lattice
    (a, { p with lattice })

def against : Step Context := do
  return (← getThe Parser).context

def ahead : Step (List Lexeme) := do
  return (← getThe Parser).reader.rest

structure Nested where
  whole : Step DocType
  bracketed : Step DocType
  single : Step DocType
  basic : Step DocType

open Parse PhpDoc.Lattice
open Grammar (Construct construct? optionalKey rangeBound scopeType classType constantName joins
  bracketsTo)

def itemsTo {α : Type} (item : Step α) (more : Parse Bool) : Nat → Step (List α)
  | 0 => fail
  | bound + 1 => do
    let a ← item
    if ← more then
      skip
      return a :: (← itemsTo item more bound)
    else return [a]

def items {α : Type} (item : Step α) (more : Parse Bool) : Step (List α) := do
  itemsTo item more ((← ahead).length + 1)

def argumentsTo (inner : Nested) : Nat → Step Unit
  | 0 => fail
  | bound + 1 => do
    let _ ← inner.whole
    if bound = 0 || !(← sees ",") then expect ">"
    else
      skip
      argumentsTo inner bound

def arguments (inner : Nested) (most : Option Nat) : Step Unit := do
  expect "<"
  argumentsTo inner (most.getD ((← ahead).length + 1))

def requiredKey : Step Unit := do
  match ← next? with
  | some l =>
    if l.kind = .name || l.kind = .quoted then
      skip
      accept "?"
      expect ":"
    else fail
  | none => fail

def entriesTo (inner : Nested) (keyed : Bool) : Nat → Step Unit
  | 0 => fail
  | bound + 1 => do
    if !keyed && (← sees "...") then
      skip
      expect "\x7d"
    else
      if keyed then requiredKey else optionalKey
      let _ ← inner.whole
      if ← sees "," then
        skip
        if ← sees "\x7d" then skip else entriesTo inner keyed bound
      else expect "\x7d"

def shape (inner : Nested) (keyed : Bool) : Step Unit := do
  expect "\x7b"
  if ← sees "\x7d" then skip
  else entriesTo inner keyed ((← ahead).length + 1)

def mask (inner : Nested) : Step Unit := do
  let t ← tryCatch inner.basic fun f => throw { masks := f.masks + 1 }
  if ← fits (.atom "int") t then return () else throw { masks := 1 }

def int (inner : Nested) : Step DocType := do
  let w ← word
  if w = "int" then
    if ← sees "<" then
      skip
      rangeBound "min"
      expect ","
      rangeBound "max"
      expect ">"
  else if w = "int-mask" then
    expect "<"
    let _ ← items (mask inner) (sees ",")
    expect ">"
  else if w = "int-mask-of" then
    expect "<"
    mask inner
    expect ">"
  return .atom "int"

def string (inner : Nested) : Step DocType := do
  let w ← word
  if w = "class-string" then
    if ← sees "<" then
      skip
      let t ← inner.whole
      if ← fits (.atom "object") t then expect ">" else fail
  return .atom "string"

def array (inner : Nested) : Step DocType := do
  let w ← word
  if ← sees "<" then
    skip
    let first ← inner.whole
    if ← sees "," then
      if w = "list" || w = "non-empty-list" then fail
      if ← fits (.atom "array-key") first then
        skip
        let _ ← inner.whole
      else fail
    expect ">"
  else if ← sees "\x7b" then
    if Text.beginsWith "non-empty-" w then fail
    shape inner false
  return .atom "array"

def parametersTo (inner : Nested) : Nat → Step Unit
  | 0 => fail
  | bound + 1 => do
    if ← sees ")" then skip
    else
      let _ ← inner.whole
      accept "&"
      accept "..."
      accept "="
      if (← next?).any (·.kind == .variable) then skip
      if !(← sees ")") then expect ","
      parametersTo inner bound

def callable (inner : Nested) : Step DocType := do
  let l ← take
  if ← sees "(" then
    skip
    parametersTo inner ((← ahead).length + 1)
    expect ":"
    let _ ← if ← sees "?" then inner.whole else inner.single
  return .atom (if l.text = "callable" then "callable" else "\\Closure")

def keyOrValue (inner : Nested) : Step DocType := do
  skip
  expect "<"
  let t ← inner.whole
  let loops : Query Bool := fits (.atom "iterable") t <||> fits (.atom "object") t
  if ← loops then expect ">" else fail
  return (← against).unknown

def className (inner : Nested) : Step DocType := do
  let l ← take
  if l.text.toList.getLast? = some '\\' then fail
  if ← sees "<" then arguments inner none
  return classType (← against).scope l.text

def stem (inner : Nested) : Construct → Step DocType
  | .bool => do
    let _ ← word
    return .atom "bool"
  | .int => int inner
  | .float => do
    let _ ← word
    return .atom "float"
  | .string => string inner
  | .array => array inner
  | .object => do
    skip
    if ← sees "\x7b" then shape inner true
    return .atom "object"
  | .never => do
    let _ ← word
    return .never
  | .plain => do
    let l ← take
    return .atom l.text
  | .self => do
    skip
    return scopeType (← against).scope.className "self"
  | .parent => do
    skip
    return scopeType (← against).scope.parentName "parent"
  | .static => do Grammar.static (← against)
  | .callable => callable inner
  | .iterable => do
    skip
    if ← sees "<" then arguments inner (some 2)
    return .atom "iterable"
  | .keyOrValue => keyOrValue inner
  | .className => className inner

def basic (inner : Nested) : Step DocType := do
  match (← next?).bind (construct? (← against).scope) with
  | none => fail
  | some k =>
    let t ← stem inner k
    if ← sees "::" then
      if (← superTypes t.text).contains "object" then
        skip
        constantName
        return (← against).unknown
      else return t
    else return t

def single (inner : Nested) : Step DocType := do
  let t ←
    if ← sees "(" then do
      skip
      let t ← inner.bracketed
      expect ")"
      pure t
    else basic inner
  bracketsTo t (← ahead).length

def intersection (inner : Nested) : Step (List Member) := do
  let parts ← items (single inner) joins
  match parts, parts.any DocType.isUnion with
  | [t], true => return t.members
  | _, true => fail
  | _, false =>
    match parts.flatMap DocType.atoms with
    | [a] => return [[a]]
    | as =>
      match ← Lattice.intersection as with
      | some m => return [m]
      | none => fail

def whole (inner : Nested) : Step DocType := do
  if ← sees "?" then
    skip
    let t ← single inner
    union (t.members ++ [["null"]])
  else
    let members ← items (intersection inner) (sees "|")
    union members.flatten

def bracketed (inner : Nested) : Step DocType := do
  if (← next?).any (·.kind == .variable) && (← seesAt 1 "is") then
    skip
    skip
    let _ ← inner.whole
    expect "?"
    let first ← inner.whole
    expect ":"
    let second ← inner.whole
    union (first.members ++ second.members)
  else whole inner

def nested : Nat → Nested
  | 0 => ⟨fail, fail, fail, fail⟩
  | depth + 1 =>
    let inner := nested depth
    ⟨whole inner, bracketed inner, single inner, basic inner⟩

def type : Step DocType := do
  (nested ((← ahead).length + 1)).whole

end Parser
end PhpDoc
