import PhpDoc.Check.Event
import PhpDoc.Outline.Visit
/-!
Templates: every tag binds a name to a type, and later tags see the names bound before.
-/
namespace PhpDoc.Check

def templateNames : List String :=
  ["@template", "@template-covariant", "@template-contravariant"]

def templateTags (c : DocComment) : List Tag :=
  c.tags.filter fun t => templateNames.contains t.name

def readTemplate (h : Hierarchy) (scope : Scope) (t : Tag) : TypedTag :=
  TypedTag.readTemplate { scope, hierarchy := h } t.text

/-- The scope with the template of a tag; one whose type is malformed has no values. -/
def bindTemplate (h : Hierarchy) (scope : Scope) (t : Tag) : Scope :=
  let typed := readTemplate h scope t
  match typed.name with
  | some name => scope.withTemplate name (typed.type.getD .never)
  | none => scope

def bindTemplates (h : Hierarchy) : Binder := fun scope c =>
  ((templateTags c).foldl (bindTemplate h) scope).templates

def template (h : Hierarchy) (scope : Scope) (t : Tag) : List Event :=
  let typed := readTemplate h scope t
  Event.reading t.text typed ++
    match typed.name, typed.type with
    | none, _ => [.onTag .templateName t]
    | some _, none => [.onTag .templateType t]
    | some _, some _ => Event.spelling .templateTypeStyle t typed

def templates (h : Hierarchy) (scope : Scope) : List Tag → List Event
  | [] => []
  | t :: ts => template h scope t ++ templates h (bindTemplate h scope t) ts

end PhpDoc.Check
