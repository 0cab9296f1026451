import PhpDoc.Source.Piece
/-!
The role of a word in its surroundings: member and function names may be keywords, a function
without a name is a closure, and `class` and `enum` have special uses.
-/
namespace PhpDoc.Piece

def next? : List Piece → Option (Piece × List Piece)
  | [] => none
  | p :: ps => if p.kind.isTrivia then next? ps else some (p, ps)

def opensParameters (ps : List Piece) : Bool :=
  match next? ps with
  | some (p, rest) =>
    if p.kind = .ampersand then
      match next? rest with
      | some (q, _) => q.kind == .openParen
      | none => false
    else p.kind == .openParen
  | none => false

def role (before : Option Kind) (p : Piece) (after : List Piece) : Kind :=
  if before = some .arrow ∨ before = some .doubleColon ∨ before = some .functionKw then
    if isWord p.text then .word else p.kind
  else if p.kind = .functionKw then
    if opensParameters after then .closureKw else .functionKw
  else if p.kind = .classKw ∧ before = some .newKw then .anonymousClassKw
  else if p.kind = .word ∧ Text.fold (String.ofList p.text) = "enum" ∧
      (next? after).any (·.1.kind == .word) then .enumKw
  else p.kind

def assign (before : Option Kind) : List Piece → List Piece
  | [] => []
  | p :: ps =>
    if p.kind.isTrivia then p :: assign before ps
    else
      let kind := role before p ps
      { p with kind } :: assign (some kind) ps

end PhpDoc.Piece
