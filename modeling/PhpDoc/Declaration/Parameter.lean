import PhpDoc.Declaration.Basic
/-!
The parameters of a function.
-/
namespace PhpDoc

/-- A parameter: its name with the dollar sign, its text without attributes and promotion
modifiers, its type and default value as written, and the token of its variable. -/
structure Parameter where
  name : String
  content : String
  typeHint : String
  byReference : Bool
  variadic : Bool
  defaultText : Option String
  place : Nat
deriving DecidableEq, Repr

namespace Parameter

def isPromotion (k : Kind) : Bool :=
  [.publicKw, .protectedKw, .privateKw, .readonlyKw].contains k

def start? (ts : Tokens) (stop : Nat) (i : Nat) : Option Nat :=
  if h : i < ts.size then
    if stop ≤ i then none
    else if ts[i].kind = .attributeOpen then start? ts stop (ts.pastGroup i)
    else if isPromotion ts[i].kind || ts[i].kind.isFiller then start? ts stop (i + 1)
    else some i
  else none
termination_by ts.size - i
decreasing_by
  all_goals
    have := Tokens.lt_pastGroup ts i
    omega

/-- What has been seen of a parameter: where its type ends, its signs, its variable, and where its
default value starts. -/
structure Seen where
  typeEnd : Option Nat := none
  byReference : Bool := false
  variadic : Bool := false
  variableAt : Option Nat := none
  defaultAt : Option Nat := none

def refersToVariable (ts : Tokens) (i : Nat) : Bool :=
  match (ts.solid? (i + 1)).bind ts.kind? with
  | some .variable | some .ellipsis => true
  | _ => false

def look (ts : Tokens) (stop : Nat) (i : Nat) (s : Seen) : Seen :=
  if h : i < ts.size ∧ i < stop then
    let sign (s : Seen) : Seen := { s with typeEnd := s.typeEnd <|> some i }
    match s.variableAt, ts[i].kind with
    | none, .variable =>
      look ts stop (ts.pastGroup i) { sign s with variableAt := some i }
    | none, .ampersand =>
      look ts stop (ts.pastGroup i)
        (if refersToVariable ts i then { sign s with byReference := true } else s)
    | none, .ellipsis => look ts stop (ts.pastGroup i) { sign s with variadic := true }
    | some _, .equal => { s with defaultAt := some (i + 1) }
    | _, _ => look ts stop (ts.pastGroup i) s
  else s
termination_by ts.size - i
decreasing_by
  all_goals
    have := Tokens.lt_pastGroup ts i
    omega

def read? (ts : Tokens) (start stop : Nat) : Option Parameter := do
  let first ← start? ts stop start
  let seen := look ts stop first {}
  let place ← seen.variableAt
  let t ← ts[place]?
  some {
    name := t.text
    content := ts.textOf first stop
    typeHint := ts.textOf first (seen.typeEnd.getD place)
    byReference := seen.byReference
    variadic := seen.variadic
    defaultText := seen.defaultAt.map fun i => ts.textOf i stop
    place }

def listFrom (ts : Tokens) (closer start i : Nat) : List Parameter :=
  if h : i < ts.size ∧ i ≤ closer then
    if i = closer ∨ ts[i].kind = .comma then
      (read? ts start i).toList ++ listFrom ts closer (i + 1) (i + 1)
    else listFrom ts closer start (ts.pastGroup i)
  else []
termination_by ts.size - i
decreasing_by
  all_goals
    have := Tokens.lt_pastGroup ts i
    omega

def list (ts : Tokens) (i : Nat) : List Parameter :=
  match ts[i]?.bind (·.parameters) with
  | some g => listFrom ts g.closer (g.opener + 1) (g.opener + 1)
  | none => []

end Parameter
end PhpDoc
