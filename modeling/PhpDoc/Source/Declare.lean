import PhpDoc.Source.Token
/-!
How far constructs extend: bracket groups, the parameter list and body of a declaration, and
documentation comments.
-/
namespace PhpDoc.Tokens

def group? (ts : Tokens) (i : Nat) : Option Group :=
  ts[i]?.bind (·.group)

def past (i : Nat) (g : Option Group) : Nat :=
  match g with
  | some g => if i < g.closer then g.closer + 1 else i + 1
  | none => i + 1

theorem lt_past (i : Nat) (g : Option Group) : i < past i g := by
  unfold past
  split
  · split <;> omega
  · omega

def parameterOpener (ts : Tokens) (i : Nat) : Option Nat :=
  if h : i < ts.size then
    match ts[i].kind with
    | .openParen => some i
    | .semicolon => none
    | .openBrace => none
    | _ => parameterOpener ts (i + 1)
  else none
termination_by ts.size - i

def bodyOpener (ts : Tokens) (i : Nat) : Option Nat :=
  if h : i < ts.size then
    match ts[i].kind with
    | .openBrace => some i
    | .semicolon => none
    | .closeBrace => none
    | .doubleArrow => none
    | _ => bodyOpener ts (past i ts[i].group)
  else none
termination_by ts.size - i
decreasing_by
  have := lt_past i ts[i].group
  omega

def parameterList (ts : Tokens) (i : Nat) : Option Group :=
  (parameterOpener ts (i + 1)).bind ts.group?

def bodyFrom (ts : Tokens) (i : Nat) : Option Group :=
  (bodyOpener ts i).bind ts.group?

/-- A keyword with the parameter list and the body of what it declares. A named function, closure
or arrow function without a parameter list has no body either, and an arrow function never has
one. -/
def declare (ts : Tokens) (i : Nat) (t : Token) : Token :=
  match t.kind with
  | .functionKw | .closureKw =>
    match ts.parameterList i with
    | some g => { t with parameters := some g, body := ts.bodyFrom (g.closer + 1) }
    | none => t
  | .fnKw => { t with parameters := ts.parameterList i }
  | .anonymousClassKw =>
    match ts.parameterList i with
    | some g => { t with parameters := some g, body := ts.bodyFrom (g.closer + 1) }
    | none => { t with body := ts.bodyFrom (i + 1) }
  | .classKw | .interfaceKw | .traitKw | .enumKw | .namespaceKw =>
    { t with body := ts.bodyFrom (i + 1) }
  | _ => t

def commentEnd (ts : Tokens) (i : Nat) : Option Nat :=
  if h : i < ts.size then
    if ts[i].kind = .docClose then some i
    else if ts[i].kind.isDoc then commentEnd ts (i + 1)
    else none
  else none
termination_by ts.size - i

end PhpDoc.Tokens
