import PhpDoc.Bindings
import PhpDoc.ScanError
import PhpDoc.Text.Fold
import PhpDoc.Text.Split
import PhpDoc.Type.Basic
/-!
Lexical scopes. A scope is a value: nested regions and new bindings derive new scopes, and names
of classes are resolved against the namespace and the imports of a scope.
-/
namespace PhpDoc

namespace ScopeKind

def nested : ScopeKind → List ScopeKind
  | .root => [.nameSpace, .classLike, .function, .other]
  | .nameSpace => [.classLike, .function, .other]
  | .classLike => [.classLike, .function]
  | .function => [.parameters, .other]
  | .parameters => [.classLike, .function]
  | .other => [.classLike, .function, .other]

end ScopeKind

/-- The region that a statement stands in and the names bound there. The namespace is absolute, or
empty for the global one; `closer` is the token at which the region ends. -/
structure Scope where
  kind : ScopeKind := .root
  nameSpace : String := ""
  imports : Bindings String := []
  templates : Bindings DocType := []
  className : Option String := none
  parentName : Option String := none
  closer : Option Nat := none
deriving DecidableEq, Repr, Inhabited

structure Region where
  kind : ScopeKind
  closer : Option Nat := none
  className : Option String := none
  parentName : Option String := none
  nameSpace : String := ""

namespace Scope

/-- The scope of a nested region, if its kind may be nested here. A class sets the names of class
and parent, a namespace starts without imports. -/
def enter (s : Scope) (r : Region) : Except ScanError Scope :=
  if s.kind.nested.contains r.kind then
    let inner := { s with kind := r.kind, closer := r.closer }
    .ok <| match r.kind with
      | .classLike => { inner with className := r.className, parentName := r.parentName }
      | .nameSpace => { inner with nameSpace := r.nameSpace, imports := [] }
      | _ => inner
  else .error ⟨.nesting r.kind s.kind, r.closer⟩

def withNamespace (s : Scope) (name : String) : Scope :=
  { s with nameSpace := name, imports := [] }

def withImport (s : Scope) (short name : String) : Scope :=
  { s with imports := s.imports.bind short name }

def withTemplate (s : Scope) (name : String) (type : DocType) : Scope :=
  { s with templates := s.templates.bind name type }

def qualify (s : Scope) (name : String) : String :=
  s.nameSpace ++ "\\" ++ name

/-- The absolute name of the class that a name refers to: an absolute name as it is, a name
relative to the namespace, one that begins with an imported alias, or else a name of the
namespace. -/
def resolve (s : Scope) (name : String) : String :=
  if Text.beginsWith "\\" name then name
  else if Text.beginsWith "namespace\\" (Text.fold name) then s.qualify (Text.dropFirst 10 name)
  else
    let first := Text.firstPiece '\\' name
    match s.imports.get? first with
    | some target => target ++ Text.dropFirst first.length name
    | none => s.qualify name

end Scope
end PhpDoc
