import PhpDoc.Type.Fits
/-!
The normal form of a type: sorted, without repetitions, and without atoms or members that another
one makes redundant.
-/
namespace PhpDoc.Hierarchy

def tidyAtoms (h : Hierarchy) (atoms : List String) : Option (List String) :=
  let drop (kept : List String) (a : String) : Option (List String) :=
    if h.isObjectLike a then
      let supers := h.superTypes a
      some (kept.filter fun k => !supers.contains k)
    else none
  atoms.foldlM drop atoms

/-- The intersection of atoms in normal form, if they can be intersected. When each of them is a
supertype of another one, a nameless atom is left. -/
def intersection (h : Hierarchy) (atoms : List String) : Option Member :=
  if atoms.contains "never" then some ["never"]
  else
    match atoms.filter (· ≠ "mixed") with
    | [] => some ["mixed"]
    | [a] => some [a]
    | as => (h.tidyAtoms as).map fun kept =>
        match Member.arrange (kept.map fun a => [a]) with
        | [] => [""]
        | ms => ms.flatten

def dropNarrower (h : Hierarchy) : List Member → List Member → List Member
  | [], kept => kept
  | wide :: rest, kept =>
    if kept.contains wide then
      dropNarrower h rest (kept.filter fun m => m == wide || !h.fits ⟨[wide]⟩ ⟨[m]⟩)
    else dropNarrower h rest kept

def union (h : Hierarchy) (members : List Member) : DocType :=
  match Member.arrange members with
  | [m] => ⟨[m]⟩
  | ms =>
    if ms.contains ["mixed"] then .mixed
    else
      let ms := ms.filter (· ≠ ["never"])
      ⟨h.dropNarrower ms ms⟩

end PhpDoc.Hierarchy
