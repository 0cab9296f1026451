/-!
Finite maps from names, kept in the order in which the names were first bound.
-/
namespace PhpDoc

/-- What is looked up stands in a row of the table. -/
theorem mem_of_lookup {α : Type} {rows : List (String × α)} {name : String} {value : α}
    (h : rows.lookup name = some value) : (name, value) ∈ rows := by
  obtain ⟨before, after, rfl, -⟩ := List.lookup_eq_some_iff.mp h
  simp

/-- Values bound to names, each name at most once. -/
abbrev Bindings (α : Type) := List (String × α)

namespace Bindings
variable {α : Type}

def bind (name : String) (value : α) : Bindings α → Bindings α
  | [] => [(name, value)]
  | (n, v) :: rest => if n = name then (name, value) :: rest else (n, v) :: bind name value rest

def get? (m : Bindings α) (name : String) : Option α :=
  m.lookup name

theorem get?_bind_self (m : Bindings α) (name : String) (value : α) :
    (m.bind name value).get? name = some value := by
  induction m with
  | nil => simp [bind, get?]
  | cons p m ih =>
    obtain ⟨n, v⟩ := p
    by_cases h : n = name
    · simp [bind, get?, h]
    · have h' : (name == n) = false := by simpa using Ne.symm h
      simpa [bind, get?, h, List.lookup_cons, h'] using ih

theorem get?_bind_of_ne (m : Bindings α) {name other : String} (value : α) (h : other ≠ name) :
    (m.bind name value).get? other = m.get? other := by
  have ho : (other == name) = false := by simpa using h
  induction m with
  | nil => simp [bind, get?, List.lookup_cons, ho]
  | cons p m ih =>
    obtain ⟨n, v⟩ := p
    by_cases hn : n = name
    · simp [bind, get?, hn, List.lookup_cons, ho]
    · cases hq : other == n with
      | true => simp [bind, get?, hn, List.lookup_cons, hq]
      | false => simpa [bind, get?, hn, List.lookup_cons, hq] using ih

end Bindings
end PhpDoc
