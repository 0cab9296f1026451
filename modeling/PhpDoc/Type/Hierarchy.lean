import PhpDoc.Bindings
import PhpDoc.Text.Split
import PhpDoc.Type.Library
/-!
Supertypes of an atom. Class names are looked up among the built-in classes first and then among
the classes declared in the file under check; the supertypes are listed breadth first.
-/
namespace PhpDoc

structure ClassEntry where
  extended : Option String
  implemented : List String
deriving DecidableEq, Repr, Inhabited

def ClassEntry.parents (a : ClassEntry) : List String :=
  match a.extended with
  | some name => if name = "" then a.implemented else name :: a.implemented
  | none => a.implemented

abbrev Hierarchy := Bindings ClassEntry

def wordParents : List (String × List String) := [
  ("int", ["array-key", "scalar"]),
  ("string", ["array-key", "scalar"]),
  ("callable-string", ["callable", "string", "array-key", "scalar"]),
  ("array-key", ["scalar"]),
  ("float", ["scalar"]),
  ("bool", ["scalar"]),
  ("array", ["iterable"]),
  ("static", ["self", "parent", "object"]),
  ("self", ["parent", "object"]),
  ("parent", ["object"])]

namespace Hierarchy

def rows (h : Hierarchy) : List (String × List String) :=
  Library.rows ++ h.map fun (name, a) => (name, a.parents)

def adjoin (supers : List String) (name : String) : List String :=
  if supers.contains name then supers else supers ++ [name]

def unseen : List (String × List String) → List String → Nat
  | [], _ => 0
  | r :: rows, seen => (if r.1 ∈ seen then 0 else r.2.length) + unseen rows seen

theorem unseen_cons_le (rows : List (String × List String)) (seen : List String) (name : String) :
    unseen rows (name :: seen) ≤ unseen rows seen := by
  induction rows with
  | nil => simp [unseen]
  | cons r rows ih =>
    simp only [unseen, List.mem_cons]
    split <;> split <;> simp_all
    omega

theorem unseen_cons_add_le {rows : List (String × List String)} {seen : List String}
    {name : String} {parents : List String} (hl : rows.lookup name = some parents)
    (hs : name ∉ seen) : unseen rows (name :: seen) + parents.length ≤ unseen rows seen := by
  induction rows with
  | nil => simp at hl
  | cons r rows ih =>
    obtain ⟨n, ps⟩ := r
    have hle := unseen_cons_le rows seen name
    simp only [unseen, List.mem_cons]
    rw [List.lookup_cons] at hl
    by_cases hn : name = n
    · subst hn
      have hp : ps = parents := by simpa using hl
      subst hp
      simp only [hs, or_false, if_true, if_false]
      omega
    · have hn' : (name == n) = false := by simpa using hn
      have h := ih (by simpa [hn'] using hl)
      simp only [Ne.symm hn, false_or]
      split <;> omega

/-- Visits the queue in order. A name in the table sends its direct supertypes to the end of the
queue; for any other name `beyond` gives all supertypes at once. -/
def walk (rows : List (String × List String)) (beyond : String → List String) :
    List String → List String → List String → List String
  | [], _, supers => supers
  | name :: queue, seen, supers =>
    if _hs : name ∈ seen then walk rows beyond queue seen supers
    else
      match _hl : rows.lookup name with
      | some parents =>
        walk rows beyond (queue ++ parents) (name :: seen) (adjoin supers name)
      | none =>
        walk rows beyond queue (name :: seen) ((beyond name).foldl adjoin (adjoin supers name))
termination_by queue seen => unseen rows seen + queue.length
decreasing_by
  · simp
  · have := unseen_cons_add_le _hl _hs
    simp; omega
  · have := unseen_cons_le rows seen name
    simp; omega

/-- The supertypes of an atom, where `depth` bounds how often a late-bound class may stand among
the supertypes of a class. -/
def superTypesTo (rows : List (String × List String)) : Nat → String → List String
  | 0, _ => []
  | depth + 1, base =>
    match wordParents.lookup base with
    | some supers => supers
    | none =>
      if Text.beginsWith "static(" base then
        let name := Text.slice base 7 (base.length - 1)
        walk rows (superTypesTo rows depth) ((rows.lookup name).getD []) [name]
          (adjoin ["static", "self", "parent", "object"] name)
      else if Text.beginsWith "\\" base then
        walk rows (superTypesTo rows depth) ((rows.lookup base).getD []) [base] ["object"]
      else []

/-- Every type that the values of an atom have besides it, without the atom itself; only a
late-bound class counts the class that it is bound to. -/
def superTypes (h : Hierarchy) (base : String) : List String :=
  superTypesTo h.rows ((h.flatMap fun r => r.2.parents).length + 2) base

end Hierarchy
end PhpDoc
