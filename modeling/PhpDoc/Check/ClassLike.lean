import PhpDoc.Check.Event
/-!
The documentation of a class or something like it: its properties.
-/
namespace PhpDoc.Check

def propertyNames : List String :=
  ["@property", "@property-read", "@property-write"]

def misplacedOnClass : List String :=
  ["@param", "@return", "@var"]

def property (h : Hierarchy) (scope : Scope) (t : Tag) : List Event :=
  let typed := TypedTag.read { scope, hierarchy := h } t.text .variable
  Event.reading t.text typed ++
    (if typed.type.isNone then [.onTag .classPropType t]
      else Event.spelling .classPropTypeStyle t typed) ++
    Event.when typed.name.isNone (.onTag .classPropName t)

def classLike (h : Hierarchy) (scope : Scope) (c : DocComment) : List Event :=
  (propertyNames.flatMap c.named).flatMap (property h scope) ++
    Event.misplaced c misplacedOnClass

end PhpDoc.Check
