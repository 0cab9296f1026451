/-!
Measuring how far a construct reaches at the start of a text.
-/
namespace PhpDoc.Text

def run (p : Char → Bool) (cs : List Char) : Nat :=
  (cs.takeWhile p).length

theorem run_le_length (p : Char → Bool) (cs : List Char) : run p cs ≤ cs.length := by
  induction cs with
  | nil => simp [run]
  | cons c cs ih =>
    by_cases h : p c
    · simpa [run, h] using ih
    · simp [run, h]

theorem drop_length_takeWhile (p : Char → Bool) (cs : List Char) :
    cs.drop (cs.takeWhile p).length = cs.dropWhile p := by
  have hcut := List.takeWhile_append_dropWhile (p := p) (l := cs)
  calc cs.drop (cs.takeWhile p).length
      = (cs.takeWhile p ++ cs.dropWhile p).drop (cs.takeWhile p).length := by rw [hcut]
    _ = cs.dropWhile p := List.drop_left

theorem mem_take_run {p : Char → Bool} {cs : List Char} {d : Char} (hd : d ∈ cs.take (run p cs)) :
    p d = true := by
  rw [run, ← List.prefix_iff_eq_take.mp (List.takeWhile_prefix p)] at hd
  exact List.all_eq_true.mp List.all_takeWhile d hd

/-- The number of characters up to and including the closing quote, if there is one; a backslash
takes the next character with it. -/
def quoteTail (quote : Char) : List Char → Option Nat
  | [] => none
  | '\\' :: _ :: cs => (quoteTail quote cs).map (· + 2)
  | c :: cs =>
    if c = quote then some 1
    else if c = '\\' then none
    else (quoteTail quote cs).map (· + 1)

theorem quoteTail_le_length {quote : Char} {cs : List Char} {n : Nat}
    (h : quoteTail quote cs = some n) : n ≤ cs.length := by
  fun_induction quoteTail quote cs generalizing n with
  | case1 => cases h
  | case2 d cs ih =>
    obtain ⟨i, hi, rfl⟩ := Option.map_eq_some_iff.mp h
    have hle := ih hi
    simp only [List.length_cons]
    omega
  | case3 =>
    cases h
    simp
  | case4 => cases h
  | case5 c cs _ _ _ ih =>
    obtain ⟨i, hi, rfl⟩ := Option.map_eq_some_iff.mp h
    have hle := ih hi
    simp only [List.length_cons]
    omega

end PhpDoc.Text
