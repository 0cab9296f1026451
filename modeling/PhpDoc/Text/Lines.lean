/-!
Line structure of a text. Source lines end at CRLF, CR or LF, each counted once; the lines shown
under a finding end at every character that ends a line on some terminal.
-/
namespace PhpDoc.Text

/-- The number of line breaks, with CRLF, CR and LF each counted once. -/
def lineBreaks : List Char → Nat
  | [] => 0
  | '\r' :: '\n' :: s => lineBreaks s + 1
  | c :: s => if c = '\r' ∨ c = '\n' then lineBreaks s + 1 else lineBreaks s

def lastLine (s : List Char) : List Char :=
  (s.reverse.takeWhile fun c => c ≠ '\r' ∧ c ≠ '\n').reverse

def breakWidth : List Char → Nat
  | '\r' :: '\n' :: _ => 2
  | '\r' :: _ => 1
  | '\n' :: _ => 1
  | _ => 0

def endsDisplayLine (c : Char) : Bool :=
  let n := c.toNat
  (0xA ≤ n && n ≤ 0xD) || (0x1C ≤ n && n ≤ 0x1E) || n == 0x85 || n == 0x2028 || n == 0x2029

/-- The lines of a text as displayed, `line` being the part of the current one already read,
backwards. No line follows a final line end. -/
def displayLinesFrom (line : List Char) : List Char → List String
  | [] => if line.isEmpty then [] else [String.ofList line.reverse]
  | '\r' :: '\n' :: s => String.ofList line.reverse :: displayLinesFrom [] s
  | c :: s =>
    if endsDisplayLine c then String.ofList line.reverse :: displayLinesFrom [] s
    else displayLinesFrom (c :: line) s

def displayLines (s : String) : List String :=
  displayLinesFrom [] s.toList

def unifyBreaks : List Char → List Char
  | [] => []
  | '\r' :: '\n' :: s => '\n' :: unifyBreaks s
  | c :: s => (if c = '\r' then '\n' else c) :: unifyBreaks s

end PhpDoc.Text
