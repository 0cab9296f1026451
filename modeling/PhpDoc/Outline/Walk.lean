import PhpDoc.Outline.Declared
import PhpDoc.Outline.Import
/-!
The walk over the statements of a file. Every region is walked with the scope it brings. A statement
that cannot be followed ends in a fault, and the walk goes on after the next semicolon or block.
-/
namespace PhpDoc.Outline

open Step

def beginsDeclaration (k : Kind) : Bool :=
  isModifier k || k.isClassLike || k.isFunction || k = .varKw || k = .constKw

def declareStatement : Step Unit := do
  let _ ← take
  if (← kind?) = some .openParen then
    jump ((← paired (← current).group).closer + 1)

def statement (b : Binder) (scope : Scope) : Step Scope := do
  let t ← current
  match t.kind with
  | .openBrace =>
    let g ← paired t.group
    let _ ← take
    let inner ← enter scope { kind := .other, closer := some g.closer }
    within inner g.closer
    return scope
  | .closeBrace => fail .strayBrace
  | .namespaceKw => namespaceStatement scope
  | .useKw => useStatement scope
  | .declareKw =>
    declareStatement
    return scope
  | .attributeOpen =>
    let g ← paired t.group
    jump (g.closer + 1)
    return scope
  | k =>
    if beginsDeclaration k then declaration b scope
    else
      let _ ← take
    return scope

/-- What a statement comes to: the items in it, the position after it or at the moment of failure, and
the scope for the next statement, or else the reason why it cannot be followed. -/
structure Outcome where
  items : List Item
  position : Nat
  result : Except ScanError Scope
deriving Inhabited

def outcome (b : Binder) (ts : Tokens) (scope : Scope) (i : Nat) : Outcome :=
  let (result, p) := (((statement b scope).run ts).run).run ⟨i, []⟩
  ⟨p.items, p.position, result⟩

/-- Where the walk goes on from an index: past a semicolon, past a block, before a closing brace, or
at the end of the region. -/
def resume (ts : Tokens) (stop i : Nat) : Nat :=
  if h : i < ts.size ∧ i < stop then
    match ts[i].kind, ts[i].group with
    | .semicolon, _ => i + 1
    | .openBrace, some g => g.closer + 1
    | .closeBrace, _ => i
    | _, _ => resume ts stop (i + 1)
  else i
termination_by ts.size - i

/-- The position at which the walk goes on after a statement at `i` has failed at `j`. -/
def recover (ts : Tokens) (stop i j : Nat) : Nat :=
  ts.atOrAfter (resume ts stop (max j (i + 1)))

def Item.met (inside : Scope → Nat → Nat → List Visit) : Item → List Visit
  | .visit v => [v]
  | .region scope start stop => inside scope start stop

/-- Walks over the statements from a position up to the end of a region. The bound counts statements
that are nested or follow one another; each begins after the one before it, so that no file has
more of them than tokens. -/
def walk (b : Binder) (ts : Tokens) : Nat → Scope → Nat → Nat → List Visit
  | 0, _, _, _ => []
  | bound + 1, scope, i, stop =>
    if ts.size ≤ i ∨ stop ≤ i then []
    else
      let o := outcome b ts scope i
      let met := o.items.flatMap (Item.met (walk b ts bound))
      match o.result with
      | .ok scope => met ++ walk b ts bound scope o.position stop
      | .error e => met ++ .fault e :: walk b ts bound scope (recover ts stop i o.position) stop

def visits (b : Binder) (ts : Tokens) : List Visit :=
  walk b ts (ts.size + 1) {} (ts.atOrAfter 0) ts.size

end PhpDoc.Outline
