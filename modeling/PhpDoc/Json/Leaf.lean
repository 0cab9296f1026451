import PhpDoc.Json.Basic
/-!
The parts of a JSON text that hold no others: white space, words, numbers and strings. Each reader
takes its part off the front of a text and yields what is left.
-/
namespace PhpDoc.JsonValue

def isSpace (c : Char) : Bool :=
  c = ' ' || c = '\t' || c = '\n' || c = '\r'

def skipSpace (s : List Char) : List Char :=
  s.dropWhile isSpace

def words : List (List Char × JsonValue) := [
  ("null".toList, null),
  ("true".toList, boolean true),
  ("false".toList, boolean false),
  ("NaN".toList, number "NaN"),
  ("Infinity".toList, number "Infinity"),
  ("-Infinity".toList, number "-Infinity")]

def word? (s : List Char) : Option (JsonValue × List Char) :=
  (words.find? fun w => w.1.isPrefixOf s).map fun w => (w.2, s.drop w.1.length)

def sign : List Char → List Char × List Char
  | '-' :: s => (['-'], s)
  | s => ([], s)

def whole? : List Char → Option (List Char × List Char)
  | '0' :: s => some (['0'], s)
  | c :: s => if c.isDigit then some ((c :: s).span Char.isDigit) else none
  | [] => none

def fraction : List Char → List Char × List Char
  | '.' :: c :: s =>
    if c.isDigit then
      let (digits, rest) := (c :: s).span Char.isDigit
      ('.' :: digits, rest)
    else ([], '.' :: c :: s)
  | s => ([], s)

def exponent (s : List Char) : List Char × List Char :=
  match s with
  | e :: t =>
    if e = 'e' ∨ e = 'E' then
      let (sign, u) := match t with
        | c :: u => if c = '+' ∨ c = '-' then ([c], u) else ([], t)
        | [] => ([], t)
      match u.span Char.isDigit with
      | ([], _) => ([], s)
      | (digits, rest) => (e :: sign ++ digits, rest)
    else ([], s)
  | [] => ([], s)

def number? (s : List Char) : Option (JsonValue × List Char) := do
  let (minus, s) := sign s
  let (digits, s) ← whole? s
  let (places, s) := fraction s
  let (power, s) := exponent s
  some (number (String.ofList (minus ++ digits ++ places ++ power)), s)

def escapes : List (Char × Char) := [
  ('"', '"'), ('\\', '\\'), ('/', '/'), ('b', '\x08'), ('f', '\x0c'), ('n', '\n'), ('r', '\r'),
  ('t', '\t')]

def hexDigit? (c : Char) : Option Nat :=
  if c.isDigit then some (c.toNat - 0x30)
  else if 'a' ≤ c ∧ c ≤ 'f' then some (c.toNat - 0x57)
  else if 'A' ≤ c ∧ c ≤ 'F' then some (c.toNat - 0x37)
  else none

def hex? (a b c d : Char) : Option Nat := do
  some ((((← hexDigit? a) * 16 + (← hexDigit? b)) * 16 + (← hexDigit? c)) * 16 + (← hexDigit? d))

def unit? : List Char → Option Nat
  | '\\' :: 'u' :: a :: b :: c :: d :: _ => hex? a b c d
  | _ => none

def joined? (high low : Nat) : Option Char :=
  if 0xD800 ≤ high ∧ high < 0xDC00 ∧ 0xDC00 ≤ low ∧ low < 0xE000 then
    some (Char.ofNat (0x10000 + (high - 0xD800) * 0x400 + (low - 0xDC00)))
  else none

def ofUnit (n : Nat) : Char :=
  if 0xD800 ≤ n ∧ n < 0xE000 then '\uFFFD' else Char.ofNat n

/-- Reads the characters of a string up to its closing quote. `pending` counts the characters of a
surrogate pair that belong to what was read before. -/
def charsFrom (pending : Nat) : List Char → Option (List Char × List Char)
  | [] => none
  | c :: s =>
    if 0 < pending then charsFrom (pending - 1) s
    else if c = '"' then some ([], s)
    else if c = '\\' then
      match s with
      | 'u' :: t => do
        let high ← unit? (c :: s)
        match (unit? (t.drop 4)).bind (joined? high) with
        | some whole => (charsFrom 11 s).map fun r => (whole :: r.1, r.2)
        | none => (charsFrom 5 s).map fun r => (ofUnit high :: r.1, r.2)
      | e :: _ => do
        let meant ← escapes.lookup e
        (charsFrom 1 s).map fun r => (meant :: r.1, r.2)
      | [] => none
    else if c.toNat < 0x20 then none
    else (charsFrom 0 s).map fun r => (c :: r.1, r.2)

def stringAfter? (s : List Char) : Option (String × List Char) :=
  (charsFrom 0 s).map fun r => (String.ofList r.1, r.2)

end PhpDoc.JsonValue
