import PhpDoc.Declaration.Basic
/-!
The name of what a keyword declares, and the names that it extends and implements.
-/
namespace PhpDoc.Tokens

def declaredName (ts : Tokens) (i : Nat) : Option String :=
  match ts.kind? i with
  | some .closureKw | some .fnKw | some .anonymousClassKw => none
  | _ => do
    let first ← ts.solid? (i + 1)
    let named ← if ts.kind? first = some .ampersand then ts.solid? (first + 1) else some first
    let t ← ts[named]?
    if t.kind = .word then some t.text else none

def clauseFrom (ts : Tokens) (keyword : Kind) (stop : Nat) (inside : Bool) (i : Nat) :
    List String :=
  if h : i < ts.size ∧ i < stop then
    let t := ts[i]
    if t.kind = keyword then clauseFrom ts keyword stop true (ts.pastGroup i)
    else if t.kind = .extendsKw ∨ t.kind = .implementsKw then
      clauseFrom ts keyword stop false (ts.pastGroup i)
    else
      (if inside && t.kind.isName then [t.text] else []) ++
        clauseFrom ts keyword stop inside (ts.pastGroup i)
  else []
termination_by ts.size - i
decreasing_by
  all_goals
    have := lt_pastGroup ts i
    omega

def clause (ts : Tokens) (keyword : Kind) (i : Nat) : List String :=
  let stop := ((ts[i]?.bind (·.body)).map (·.opener)).getD ts.size
  ts.clauseFrom keyword stop false (i + 1)

def extendedNames (ts : Tokens) (i : Nat) : List String :=
  ts.clause .extendsKw i

def implementedNames (ts : Tokens) (i : Nat) : List String :=
  ts.clause .implementsKw i

end PhpDoc.Tokens
