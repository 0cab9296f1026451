import PhpDoc.Type.Normal
/-!
A lattice answers questions about types and keeps the supertypes that it has worked out. A question
looks there first and notes what it had to compute, also while the supertypes of another atom are
still being listed.
-/
namespace PhpDoc

/-- A hierarchy, and the supertypes of the atoms that have been asked for. -/
structure Lattice where
  hierarchy : Hierarchy
  known : Bindings (List String) := []
deriving DecidableEq, Repr

abbrev Query := StateM Lattice

namespace Lattice
open Hierarchy (adjoin unseen unseen_cons_le unseen_cons_add_le)

def remember (base : String) (compute : Query (List String)) : Query (List String) := do
  match (← get).known.get? base with
  | some supers => return supers
  | none =>
    let supers ← compute
    modify fun l => { l with known := l.known.bind base supers }
    return supers

def walk (rows : List (String × List String)) (beyond : String → Query (List String)) :
    List String → List String → List String → Query (List String)
  | [], _, supers => return supers
  | name :: queue, seen, supers =>
    if _hs : name ∈ seen then walk rows beyond queue seen supers
    else
      match _hl : rows.lookup name with
      | some parents =>
        walk rows beyond (queue ++ parents) (name :: seen) (adjoin supers name)
      | none => do
        let more ← beyond name
        walk rows beyond queue (name :: seen) (more.foldl adjoin (adjoin supers name))
termination_by queue seen => unseen rows seen + queue.length
decreasing_by
  · simp
  · have := unseen_cons_add_le _hl _hs
    simp; omega
  · have := unseen_cons_le rows seen name
    simp; omega

def compute (rows : List (String × List String)) (beyond : String → Query (List String))
    (base : String) : Query (List String) :=
  match wordParents.lookup base with
  | some supers => return supers
  | none =>
    if Text.beginsWith "static(" base then
      let name := Text.slice base 7 (base.length - 1)
      walk rows beyond ((rows.lookup name).getD []) [name]
        (adjoin ["static", "self", "parent", "object"] name)
    else if Text.beginsWith "\\" base then
      walk rows beyond ((rows.lookup base).getD []) [base] ["object"]
    else return []

def superTypesTo : Nat → String → Query (List String)
  | 0, _ => return []
  | depth + 1, base => do
    let rows := (← get).hierarchy.rows
    remember base (compute rows (superTypesTo depth) base)

def superTypes (base : String) : Query (List String) := do
  superTypesTo (((← get).hierarchy.flatMap fun r => r.2.parents).length + 2) base

def closure (m : Member) : Query (List String) := do
  return m ++ (← m.mapM superTypes).flatten

def covers (wide : List Member) (narrow : Member) : Query Bool := do
  let types ← closure narrow
  return wide.any fun m => m.all types.contains

def fits (wide narrow : DocType) : Query Bool :=
  if wide == .mixed || narrow == .never then return true
  else narrow.members.allM (covers (widen wide.members))

def fits? : Option DocType → Option DocType → Query Bool
  | _, none => return false
  | none, some _ => return true
  | some wide, some narrow => fits wide narrow

def isObjectLike (name : String) : Query Bool :=
  if ["object", "iterable", "callable"].contains name then return true
  else return (← superTypes name).contains "object"

def tidyAtoms : List String → List String → Query (Option (List String))
  | [], kept => return some kept
  | a :: atoms, kept => do
    if ← isObjectLike a then
      let supers ← superTypes a
      tidyAtoms atoms (kept.filter fun k => !supers.contains k)
    else return none

def intersection (atoms : List String) : Query (Option Member) :=
  if atoms.contains "never" then return some ["never"]
  else
    match atoms.filter (· ≠ "mixed") with
    | [] => return some ["mixed"]
    | [a] => return some [a]
    | as => return (← tidyAtoms as as).map fun kept =>
        match Member.arrange (kept.map fun a => [a]) with
        | [] => [""]
        | ms => ms.flatten

def dropNarrower : List Member → List Member → Query (List Member)
  | [], kept => return kept
  | wide :: rest, kept => do
    if kept.contains wide then
      dropNarrower rest (← kept.filterM fun m =>
        if m == wide then return true else return !(← fits ⟨[wide]⟩ ⟨[m]⟩))
    else dropNarrower rest kept

def union (members : List Member) : Query DocType :=
  match Member.arrange members with
  | [m] => return ⟨[m]⟩
  | ms =>
    if ms.contains ["mixed"] then return .mixed
    else
      let ms := ms.filter (· ≠ ["never"])
      return ⟨← dropNarrower ms ms⟩

end Lattice
end PhpDoc
