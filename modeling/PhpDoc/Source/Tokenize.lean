import PhpDoc.Source.Brackets
import PhpDoc.Source.Declare
import PhpDoc.Source.Role
/-!
The tokens of a source text: its pieces in order, with their roles, places, groups and extents.
-/
namespace PhpDoc

namespace Piece

structure Place where
  line : Nat := 1
  column : Nat := 1
deriving DecidableEq, Repr

def Place.after (p : Place) (text : List Char) : Place :=
  match Text.lineBreaks text with
  | 0 => { p with column := p.column + text.length }
  | n + 1 => ⟨p.line + n + 1, (Text.lastLine text).length + 1⟩

def toTokens (p : Place) : List Piece → List Token
  | [] => []
  | x :: xs =>
    { kind := x.kind, text := String.ofList x.text, line := p.line, column := p.column } ::
      toTokens (p.after x.text) xs

end Piece

namespace Tokens

def withGroups (ts : Tokens) : Tokens :=
  let groups := Group.atIndexes ts.size (Group.all (ts.toList.map (·.kind)))
  ts.mapIdx fun i t => { t with group := (groups[i]?).join }

def withExtents (ts : Tokens) : Tokens :=
  ts.mapIdx fun i t =>
    if t.kind = .docOpen then { t with commentEnd := ts.commentEnd (i + 1) }
    else ts.declare i t

end Tokens

def tokenize (source : String) : Tokens :=
  let pieces := Piece.assign none (Piece.cut false source.toList)
  Tokens.withExtents (Tokens.withGroups (Piece.toTokens {} pieces).toArray)

end PhpDoc
