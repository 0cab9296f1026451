import PhpDoc.Declaration.Basic
/-!
The types written in code: of what a function returns, of a property and of a constant.
-/
namespace PhpDoc.Tokens

def headEnd (ts : Tokens) (i : Nat) : Nat :=
  if h : i < ts.size then
    match ts[i].kind with
    | .openBrace => i
    | .semicolon => i
    | .doubleArrow => i
    | _ => headEnd ts (i + 1)
  else i
termination_by ts.size - i

def returnType (ts : Tokens) (i : Nat) : Option String := do
  let g ← ts[i]?.bind (·.parameters)
  let after ← ts.solid? (g.closer + 1)
  let colon ←
    if ts.kind? after = some .useKw then do
      let captured ← ts.solid? (after + 1)
      ts.solid? (ts.pastGroup captured)
    else some after
  if ts.kind? colon = some .colon then nonempty? (ts.textOf (colon + 1) (ts.headEnd (colon + 1)))
  else none

def isTypePart (k : Kind) : Bool :=
  k.isName || [.arrayKw, .callableKw, .nullKw, .trueKw, .falseKw, .selfKw, .parentKw, .question,
    .pipe, .ampersand, .openParen, .closeParen].contains k

def typeStart (ts : Tokens) (start : Nat) : Nat → Nat
  | 0 => start
  | i + 1 =>
    match ts.kind? i with
    | some k =>
      if isTypePart k then typeStart ts i i
      else if k.isFiller then typeStart ts start i
      else start
    | none => start

def propertyType (ts : Tokens) (i : Nat) : Option String :=
  nonempty? (ts.textOf (ts.typeStart i i) i)

def constantHead (ts : Tokens) (i : Nat) : List Nat :=
  if h : i < ts.size then
    match ts[i].kind with
    | .equal => []
    | .semicolon => []
    | k => if k.isFiller then constantHead ts (i + 1) else i :: constantHead ts (i + 1)
  else []
termination_by ts.size - i

def typeOfConstant (ts : Tokens) (i : Nat) : Option String :=
  match ts.constantHead (i + 1) with
  | first :: second :: rest => some (ts.textOf first ((second :: rest).getLastD second))
  | _ => none

end PhpDoc.Tokens
