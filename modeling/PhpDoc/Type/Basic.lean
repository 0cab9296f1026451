import PhpDoc.Text.Split
/-!
Canonical types: unions of intersections of atoms. An atom is a word such as `int`, an absolute
class name such as `\Foo\Bar`, or a late-bound class such as `static(\Foo)`. In text the members
of a union are separated by `|` and the atoms of a member by `&`.
-/
namespace PhpDoc

abbrev Member := List String

namespace Member

def ofText (s : String) : Member :=
  Text.pieces '&' s

def text (m : Member) : String :=
  Text.glue "&" m

def le (a b : Member) : Bool :=
  !decide (b.text < a.text)

def insert (m : Member) : List Member → List Member
  | [] => [m]
  | n :: ms => if m = n then n :: ms else if le m n then m :: n :: ms else n :: insert m ms

def arrange (ms : List Member) : List Member :=
  ms.foldr insert []

end Member

/-- A canonical type. -/
structure DocType where
  members : List Member
deriving DecidableEq, Repr, Inhabited

namespace DocType

def ofText (s : String) : DocType :=
  ⟨(Text.pieces '|' s).map Member.ofText⟩

def text (t : DocType) : String :=
  Text.glue "|" (t.members.map Member.text)

def atom (a : String) : DocType :=
  ⟨[[a]]⟩

def mixed : DocType := atom "mixed"

def never : DocType := atom "never"

def isNullable (t : DocType) : Bool :=
  t.members.contains ["null"]

def isUnion (t : DocType) : Bool :=
  1 < t.members.length

def atoms (t : DocType) : List String :=
  t.members.flatten

end DocType
end PhpDoc
