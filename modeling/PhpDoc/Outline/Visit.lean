import PhpDoc.DocComment
import PhpDoc.Scope
import PhpDoc.Type.Hierarchy
/-!
What a walk over the statements of a file meets. The heads of declarations tell what is declared;
the documented items that follow them tell what there is to check, and in which scope.
-/
namespace PhpDoc

inductive Visit
  | nameSpace (name : String)
  | imported (name short : String)
  | comment (c : DocComment)
  | classLike (name parent : Option String) (interfaces : List String)
  | function (name : Option String)
  | declared (names : List String)
  | templates (scope : Scope) (c : DocComment)
  | classDocs (scope : Scope) (c : DocComment)
  | functionDocs (scope : Scope) (place : Nat) (name : Option String) (c : Option DocComment)
  | variableDocs (scope : Scope) (place : Nat) (names : List String) (c : Option DocComment)
      (native : Option String)
  | fault (e : ScanError)
deriving Repr, Inhabited

/-- The templates that are bound, with those of a comment, in the scope of what it documents. -/
abbrev Binder := Scope → DocComment → Bindings DocType

namespace Binder

def none : Binder := fun s _ => s.templates

def run (b : Binder) (s : Scope) : Option DocComment → Scope
  | some c => { s with templates := b s c }
  | .none => s

end Binder

namespace Visit

def classEntry? : Visit → Option (String × ClassEntry)
  | .classLike (some name) parent interfaces => some (name, ⟨parent, interfaces⟩)
  | _ => none

def hierarchy (vs : List Visit) : Hierarchy :=
  (vs.filterMap classEntry?).foldl (fun h a => Bindings.bind a.1 a.2 h) []

end Visit
end PhpDoc
