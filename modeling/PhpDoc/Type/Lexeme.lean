import PhpDoc.Text.Blank
import PhpDoc.Text.Run
/-!
Lexemes of type expressions. The text is cut from left to right; white space separates lexemes and
a quote that is never closed ends the input where it stands.
-/
namespace PhpDoc

inductive LexemeKind
  | variable
  | name
  | number
  | quoted
  | splat
  | dcolon
  | symbol
deriving DecidableEq, Repr

structure Lexeme where
  kind : LexemeKind
  start : Nat
  text : String
  spaced : Bool
deriving DecidableEq, Repr

def Lexeme.stop (l : Lexeme) : Nat :=
  l.start + l.text.length

/-- The lexemes of a text and the position at which the usable input ends. -/
structure Lexing where
  lexemes : List Lexeme
  stop : Nat
deriving DecidableEq, Repr

namespace Lexing
open Text (run quoteTail)

def isWord (c : Char) : Bool :=
  c.isAlphanum || c == '_'

def beginsName (c : Char) : Bool :=
  c.isAlpha || c == '_' || c == '\\'

def continuesName (c : Char) : Bool :=
  isWord c || c == '-' || c == '\\'

def isDigits (c : Char) : Bool :=
  c.isDigit || c == '_'

def numberTail (cs : List Char) : Nat :=
  let n := run isDigits cs
  match cs.drop n with
  | '.' :: rest => n + 1 + run isDigits rest
  | _ => n

/-- The kind of the lexeme that starts with a character, and how many of the characters after it
belong to it; nothing for a quote that is never closed. -/
def lexemeTail (c : Char) (cs : List Char) : Option (LexemeKind × Nat) :=
  if c = '$' then some (.variable, run isWord cs)
  else if beginsName c then some (.name, run continuesName cs)
  else if c.isDigit then some (.number, numberTail cs)
  else if c = '\'' ∨ c = '"' then (quoteTail c cs).map fun n => (.quoted, n)
  else match c, cs with
    | '-', d :: rest => if d.isDigit then some (.number, 1 + numberTail rest) else some (.symbol, 0)
    | '.', '.' :: '.' :: _ => some (.splat, 2)
    | ':', ':' :: _ => some (.dcolon, 1)
    | _, _ => some (.symbol, 0)

def lexFrom (start : Nat) (spaced : Bool) : List Char → Lexing
  | [] => ⟨[], start⟩
  | c :: cs =>
    if Text.isWhiteSpace c then lexFrom (start + 1) true cs
    else
      match lexemeTail c cs with
      | none => ⟨[], start⟩
      | some (kind, n) =>
        let tail := cs.take n
        let rest := lexFrom (start + 1 + tail.length) ((tail.getLastD c) |> Text.isBlank) (cs.drop n)
        ⟨⟨kind, start, String.ofList (c :: tail), spaced⟩ :: rest.lexemes, rest.stop⟩
termination_by cs => cs.length
decreasing_by
  all_goals
    simp only [List.length_drop, List.length_cons]
    omega

end Lexing

def lex (s : String) : Lexing :=
  Lexing.lexFrom 0 false s.toList

end PhpDoc
