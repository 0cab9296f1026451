import PhpDoc.Text.Split
/-!
Paths of files, as lists of names. A path is absolute or relative to the working directory.
-/
namespace PhpDoc

/-- Where a path begins: at the working directory, or at the root. Exactly two slashes at the front
are kept as they are, while three and more are as good as one. -/
inductive Origin
  | here
  | root
  | doubleRoot
deriving DecidableEq, Repr, Inhabited

namespace Origin

def slashes : Origin → String
  | here => ""
  | root => "/"
  | doubleRoot => "//"

def ofList : List Char → Origin
  | '/' :: '/' :: '/' :: _ => root
  | '/' :: '/' :: _ => doubleRoot
  | '/' :: _ => root
  | _ => here

end Origin

/-- A path; no part is empty or a single dot. -/
structure Path where
  origin : Origin
  parts : List String
deriving DecidableEq, Repr, Inhabited

namespace Path

def ofText (s : String) : Path :=
  ⟨.ofList s.toList, (Text.pieces '/' s).filter fun p => p ≠ "" ∧ p ≠ "."⟩

def text (p : Path) : String :=
  if p.origin = .here ∧ p.parts.isEmpty then "."
  else p.origin.slashes ++ Text.glue "/" p.parts

def under (directory p : Path) : Path :=
  if p.origin = .here then ⟨directory.origin, directory.parts ++ p.parts⟩ else p

def settleParts (done : List String) : List String → List String
  | [] => done
  | ".." :: rest => settleParts done.dropLast rest
  | p :: rest => settleParts (done ++ [p]) rest

def settled (p : Path) : Path :=
  ⟨.root, settleParts [] p.parts⟩

def name (p : Path) : String :=
  p.parts.getLastD ""

/-- The ending of a name from its last dot on. There is none if the name begins or ends with that
dot. -/
def suffixOf (name : String) : String :=
  let ending := (name.toList.reverse.takeWhile (· ≠ '.')).reverse
  if ending.isEmpty ∨ name.length ≤ ending.length + 1 then ""
  else String.ofList ('.' :: ending)

def suffix (p : Path) : String :=
  suffixOf p.name

def le (p q : Path) : Bool :=
  !decide (q.parts < p.parts)

end Path
end PhpDoc
