import PhpDoc.Type.Basic
import PhpDoc.Type.Hierarchy
/-!
The comparison of types: whether every value of the narrow type is a value of the wide type, as
far as the hierarchy tells.
-/
namespace PhpDoc

/-- Adds the members that a union covers as a whole: `int|string` covers `array-key`, with `bool`
and `float` it covers `scalar`, and `\Traversable|array` covers `iterable`. -/
def widen (members : List Member) : List Member :=
  let addIf (needed : List Member) (added : Member) (ms : List Member) :=
    if needed.all ms.contains then ms ++ [added] else ms
  members
    |> addIf [["int"], ["string"]] ["array-key"]
    |> addIf [["bool"], ["float"], ["array-key"]] ["scalar"]
    |> addIf [["\\Traversable"], ["array"]] ["iterable"]

namespace Hierarchy

def closure (h : Hierarchy) (m : Member) : List String :=
  m ++ m.flatMap h.superTypes

def covers (h : Hierarchy) (wide : List Member) (narrow : Member) : Bool :=
  let types := h.closure narrow
  wide.any fun m => m.all types.contains

def fits (h : Hierarchy) (wide narrow : DocType) : Bool :=
  wide == .mixed || narrow == .never || narrow.members.all (h.covers (widen wide.members))

/-- The comparison with unknown types: an unknown narrow type fits nothing, and every known type
fits an unknown wide one. -/
def fits? (h : Hierarchy) : Option DocType → Option DocType → Bool
  | _, none => false
  | none, some _ => true
  | some wide, some narrow => h.fits wide narrow

def isObjectLike (h : Hierarchy) (name : String) : Bool :=
  ["object", "iterable", "callable"].contains name || (h.superTypes name).contains "object"

end Hierarchy
end PhpDoc
