import PhpDoc.Source.Token
/-!
Bracket groups. A closing bracket goes with the nearest opener of its sort that is still open and
leaves the openers in between without a partner; one without such an opener is left alone.
-/
namespace PhpDoc.Group

/-- The groups of tokens of the given kinds, in the order of their closers. `i` is the index of the
first kind, and `stack` holds the brackets still open, the latest first. -/
def matchFrom (i : Nat) (stack : List (Nat × Kind)) : List Kind → List Group
  | [] => []
  | k :: ks =>
    if k.closer?.isSome then matchFrom (i + 1) ((i, k) :: stack) ks
    else if k.isCloser then
      match stack.dropWhile fun o => o.2.closer? != some k with
      | [] => matchFrom (i + 1) stack ks
      | o :: below => ⟨o.1, i⟩ :: matchFrom (i + 1) below ks
    else matchFrom (i + 1) stack ks

def all (ks : List Kind) : List Group :=
  matchFrom 0 [] ks

def atIndexes (count : Nat) (groups : List Group) : Array (Option Group) :=
  groups.foldl
    (fun a g => (a.setIfInBounds g.opener (some g)).setIfInBounds g.closer (some g))
    (Array.replicate count none)

end PhpDoc.Group
