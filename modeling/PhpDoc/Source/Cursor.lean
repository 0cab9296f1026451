import PhpDoc.ScanError
import PhpDoc.Source.Token
/-!
Moving over the tokens that matter to the grammar. A position is an index at which such a token
stands, or one at or past the end of the file.
-/
namespace PhpDoc.Tokens

def atOrAfter (ts : Tokens) (i : Nat) : Nat :=
  if h : i < ts.size then
    if ts[i].kind.isTrivia then atOrAfter ts (i + 1) else i
  else i
termination_by ts.size - i

def next (ts : Tokens) (i : Nat) : Nat :=
  ts.atOrAfter (i + 1)

def ahead (ts : Tokens) (i : Nat) : Nat → Nat
  | 0 => i
  | n + 1 => ahead ts (ts.next i) n

def previous? (ts : Tokens) : Nat → Option Token
  | 0 => none
  | i + 1 =>
    match ts[i]? with
    | some t => if t.kind.isTrivia then previous? ts i else some t
    | none => previous? ts i

def advance (ts : Tokens) (i : Nat) (expected : Option Kind := none) :
    Except ScanError (Token × Nat) :=
  match ts[i]? with
  | none => .error ⟨.endOfFile, none⟩
  | some t =>
    match expected with
    | none => .ok (t, ts.next i)
    | some k =>
      if t.kind = k then .ok (t, ts.next i) else .error ⟨.expected k.label t.text, some i⟩

theorem le_atOrAfter (ts : Tokens) (i : Nat) : i ≤ ts.atOrAfter i := by
  fun_induction atOrAfter ts i <;> omega

theorem lt_next (ts : Tokens) (i : Nat) : i < ts.next i :=
  Nat.lt_of_lt_of_le (Nat.lt_succ_self i) (le_atOrAfter ts (i + 1))

end PhpDoc.Tokens
