/-!
The reasons for which a fix is not made.
-/
namespace PhpDoc

inductive FixError
  | alreadyOpen
  | notOpen
  | outOfBounds (first last : Int)
  | offText
  | lineCount (spanned : Int) (held : Nat)
deriving DecidableEq, Repr

def FixError.message : FixError → String
  | .alreadyOpen => "changeset already open"
  | .notOpen => "no changeset open"
  | .outOfBounds first last =>
    "token range " ++ toString first ++ ".." ++ toString last ++ " out of bounds"
  | .offText => "type does not start and end on tag text"
  | .lineCount spanned held =>
    "tag spans " ++ toString spanned ++ " line(s) but its tokens hold " ++ toString held

end PhpDoc
