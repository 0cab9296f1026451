import PhpDoc.Outline.Step
/-!
Namespace declarations and imports. They change the scope of the statements that follow.
-/
namespace PhpDoc.Outline

open Step

def namespaceName : Step String := do
  if ((← kind?).any Kind.isName) then return Text.dropLeading '\\' (← take).text else return ""

def namespaceStatement (scope : Scope) : Step Scope := do
  let keyword ← take (some .namespaceKw)
  let bare ← namespaceName
  let name := if bare = "" then "" else "\\" ++ bare
  meet (.nameSpace name)
  match ← kind? with
  | some .semicolon =>
    let _ ← take
    return scope.withNamespace name
  | some .openBrace =>
    let body ← paired keyword.body
    let inner ← enter scope { kind := .nameSpace, closer := some body.closer, nameSpace := name }
    let _ ← take
    within inner body.closer
    return scope
  | _ => fail .malformedNamespace

def traitStatement : Step Unit := do
  let _ ← take (some .useKw)
  skipTo [.semicolon, .openBrace]
  let t ← current
  if t.kind = .openBrace then
    jump ((← paired t.group).closer + 1)
  else
    let _ ← take

def importsClasses : Step Bool := do
  match ← kind? with
  | some .functionKw | some .constKw =>
    let _ ← take
    return false
  | _ => return true

def importedName : Step String := do
  let t ← take
  if t.kind.isName then return t.text else fail (.notImportable t.text)

def importAlias (name : String) : Step String := do
  if ← accept .asKw then return (← take).text else return Text.lastPiece '\\' name

def addImport (scope : Scope) (name : String) (classes : Bool) : Step Scope := do
  let short ← importAlias name
  if classes then
    meet (.imported name short)
    return scope.withImport short ("\\" ++ name)
  else return scope

/-- The names of a group of imports up to its closing brace. The bound counts them; every name takes
a token at least. -/
def importGroup (start : String) (classes : Bool) : Nat → Scope → Step Scope
  | 0, _ => throw ⟨.endOfFile, none⟩
  | bound + 1, scope => do
    if (← kind?) = some .closeBrace then
      let _ ← take
      return scope
    else
      let members ← importsClasses
      let scope ← addImport scope (start ++ (← importedName)) (classes && members)
      let _ ← accept .comma
      importGroup start classes bound scope

def importItem (classes : Bool) (bound : Nat) (scope : Scope) : Step Scope := do
  let name := Text.dropLeading '\\' (← importedName)
  if ← accept .backslash then
    let _ ← take (some .openBrace)
    importGroup (name ++ "\\") classes bound scope
  else addImport scope name classes

def importList (classes : Bool) : Nat → Scope → Step Scope
  | 0, _ => throw ⟨.endOfFile, none⟩
  | bound + 1, scope => do
    let scope ← importItem classes bound scope
    if ← accept .comma then importList classes bound scope else return scope

def importStatement (scope : Scope) : Step Scope := do
  let _ ← take (some .useKw)
  let classes ← importsClasses
  let scope ← importList classes ((← read).size + 1) scope
  let _ ← take (some .semicolon)
  return scope

def useStatement (scope : Scope) : Step Scope := do
  match scope.kind with
  | .classLike =>
    traitStatement
    return scope
  | .root | .nameSpace => importStatement scope
  | _ => fail .misplacedImport

end PhpDoc.Outline
