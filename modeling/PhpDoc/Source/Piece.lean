import PhpDoc.Source.Token
import PhpDoc.Text.Blank
import PhpDoc.Text.Fold
import PhpDoc.Text.Lines
import PhpDoc.Text.Run
import PhpDoc.Text.WordChar
/-!
Cutting source text into pieces, each a kind and its characters. Every cut is a number of
characters taken from the front, so the pieces in order are the source again.
-/
namespace PhpDoc

structure Piece where
  kind : Kind
  text : List Char
deriving DecidableEq, Repr

namespace Piece
open Text (run quoteTail isBlank breakWidth)

def beginsIdent (c : Char) : Bool :=
  c.isAlpha || c == '_' || (0x80 ≤ c.toNat && c.toNat ≤ 0xFFFF)

def isIdent (c : Char) : Bool :=
  beginsIdent c || c.isDigit

def isWord : List Char → Bool
  | [] => false
  | c :: cs => beginsIdent c && cs.all isIdent

def isDigits (c : Char) : Bool :=
  c.isDigit || c == '_'

def isHexDigits (c : Char) : Bool :=
  isDigits c || ('a' ≤ c && c ≤ 'f') || ('A' ≤ c && c ≤ 'F')

def isBinaryDigits (c : Char) : Bool :=
  c == '0' || c == '1' || c == '_'

def isIndent (c : Char) : Bool :=
  c == ' ' || c == '\t'

def beforeTag : List Char → Nat
  | '<' :: '?' :: _ => 0
  | _ :: cs => beforeTag cs + 1
  | [] => 0

def tagTail : List Char → Nat
  | '=' :: _ => 1
  | p :: h :: q :: cs =>
    if [p, h, q].map Char.toLower = ['p', 'h', 'p'] then
      match cs with
      | [] => 3
      | '\r' :: '\n' :: _ => 5
      | c :: _ => if isBlank c then 4 else 0
    else 0
  | _ => 0

def isDocBlank (c : Char) : Bool :=
  c == ' ' || c == '\t' || c == '\x0c' || c == '\x0b'

def beforeEnd (accepts : Char → Bool) : List Char → Nat
  | '*' :: '/' :: _ => 0
  | c :: cs => if accepts c then beforeEnd accepts cs + 1 else 0
  | [] => 0

/-- The kind of the part of a documentation comment that starts with a character, and how many of
the characters after it belong to it. A star is decoration only at the start of a line. -/
def docTail (atStart : Bool) (c : Char) (cs : List Char) : Kind × Nat :=
  if c = '*' ∧ cs.head? = some '/' then (.docClose, 1)
  else if 0 < breakWidth (c :: cs) then (.docBlank, breakWidth (c :: cs) - 1)
  else if isDocBlank c then (.docBlank, run isDocBlank cs)
  else if atStart ∧ c = '*' then (.docStar, 0)
  else if c = '@' then (.docTag, beforeEnd (fun d => !isBlank d) cs)
  else
    let text := cs.take (beforeEnd (fun d => d != '\r' && d != '\n') cs)
    (.docText, (text.reverse.dropWhile isDocBlank).length)

def docParts (atStart : Bool) : List Char → List Piece
  | [] => []
  | c :: cs =>
    let (kind, n) := docTail atStart c cs
    let next := if kind = .docBlank then (atStart || 0 < breakWidth (c :: cs)) else false
    ⟨kind, c :: cs.take n⟩ :: if kind = .docClose then [] else docParts next (cs.drop n)
termination_by cs => cs.length
decreasing_by
  simp only [List.length_drop, List.length_cons]
  omega

def commentTail : List Char → Nat
  | '*' :: '/' :: _ => 2
  | _ :: cs => commentTail cs + 1
  | [] => 0

def nameTail : List Char → Nat
  | [] => 0
  | '\\' :: c :: cs => if beginsIdent c then nameTail cs + 2 else 0
  | c :: cs => if isIdent c then nameTail cs + 1 else 0

def exponentTail : List Char → Nat
  | e :: cs =>
    if e = 'e' ∨ e = 'E' then
      let sign := match cs with
        | s :: _ => if s = '+' ∨ s = '-' then 1 else 0
        | [] => 0
      let digits := run Char.isDigit (cs.drop sign)
      if digits = 0 then 0 else 1 + sign + digits
    else 0
  | [] => 0

def numberTail (c : Char) (cs : List Char) : Kind × Nat :=
  let whole := run isDigits cs
  let rest := cs.drop whole
  match rest with
  | '.' :: fraction =>
    let n := whole + 1 + run isDigits fraction
    (.decimal, n + exponentTail (cs.drop n))
  | _ =>
    if 0 < exponentTail rest then (.decimal, whole + exponentTail rest)
    else
      match cs with
      | x :: digits =>
        if c = '0' ∧ (x = 'x' ∨ x = 'X') ∧ 0 < run isHexDigits digits then
          (.integer, 1 + run isHexDigits digits)
        else if c = '0' ∧ (x = 'b' ∨ x = 'B') ∧ 0 < run isBinaryDigits digits then
          (.integer, 1 + run isBinaryDigits digits)
        else (.integer, whole)
      | [] => (.integer, whole)

def fractionTail (cs : List Char) : Option Nat :=
  match cs with
  | d :: digits =>
    if d.isDigit then
      let n := 1 + run isDigits digits
      some (n + exponentTail (cs.drop n))
    else none
  | [] => none

/-- The length of a heredoc's closing label with its indentation, if it stands here. The label has
to end where a word ends or begins. -/
def closingLabel (label : List Char) (cs : List Char) : Option Nat :=
  let indent := run isIndent cs
  let rest := cs.drop indent
  let after := rest.drop label.length
  if label.isPrefixOf rest && label.getLast?.any Text.isWordChar != after.head?.any Text.isWordChar then
    some (indent + label.length)
  else none

def heredocBody (label : List Char) (atStart : Bool) (cs : List Char) : Option Nat :=
  match if atStart then closingLabel label cs else none with
  | some n => some n
  | none =>
    match cs with
    | [] => none
    | c :: cs => (heredocBody label (c == '\n') cs).map (· + 1)

def heredocTail (cs : List Char) : Option Nat :=
  let indent := run isIndent cs
  let opened := cs.drop indent
  let quote := match opened with
    | q :: _ => if q = '\'' ∨ q = '"' then [q] else []
    | [] => []
  let named := opened.drop quote.length
  let label := match named with
    | c :: rest => if beginsIdent c then c :: rest.takeWhile isIdent else []
    | [] => []
  let ended := named.drop label.length
  let body := ended.drop quote.length
  let width := breakWidth body
  if label.isEmpty || !quote.isPrefixOf ended || width = 0 then none
  else
    (heredocBody label ((body.take width).getLast? == some '\n') (body.drop width)).map fun n =>
      indent + quote.length + label.length + quote.length + width + n

def longSigns : List String := [
  "...", "?->", "::", "=>", "->", "#[", "<=>", "**=", "??=", "<<=", ">>=", "===", "!==", "++", "--",
  "**", "??", "<<", ">>", "<=", ">=", "==", "!=", "<>", "&&", "||", "-=", "+=", "*=", "/=", "%=",
  ".=", "&=", "|=", "^="]

def signTail (c : Char) (cs : List Char) : Nat :=
  match longSigns.find? fun s => s.toList.isPrefixOf (c :: cs) with
  | some s => s.length - 1
  | none => 0

def nameKind (text : List Char) : Kind :=
  let folded := Text.fold (String.ofList text)
  if text.head? = some '\\' then .absoluteName
  else if "namespace\\".toList.isPrefixOf folded.toList then .relativeName
  else if text.contains '\\' then .qualifiedName
  else
    match Kind.keywords.lookup folded with
    | some k => k
    | none => if Kind.otherKeywords.contains folded then .otherKw else .word

inductive Shape
  | plain (kind : Kind)
  | docComment
  | name
  | sign
deriving DecidableEq, Repr

def commentShape? (c : Char) (cs : List Char) : Option (Shape × Nat) :=
  let line := some (Shape.plain .comment, run (fun d => d != '\r' && d != '\n') cs)
  match c, cs with
  | '/', '*' :: '*' :: rest =>
    if rest.head? = some '/' then some (.plain .comment, 3)
    else some (.docComment, 2 + commentTail rest)
  | '/', '*' :: rest => some (.plain .comment, 1 + commentTail rest)
  | '/', '/' :: _ => line
  | '#', '[' :: _ => none
  | '#', _ => line
  | _, _ => none

def literalShape? (c : Char) (cs : List Char) : Option (Shape × Nat) :=
  match c, cs with
  | '$', d :: rest => if beginsIdent d then some (.plain .variable, 1 + run isIdent rest) else none
  | '<', '<' :: '<' :: rest => (heredocTail rest).map fun n => (.plain .heredoc, 2 + n)
  | '.', rest => (fractionTail rest).map fun n => (.plain .decimal, n)
  | _, _ =>
    if c = '\'' ∨ c = '"' ∨ c.toNat = 0x60 then
      (quoteTail c cs).map fun n => (.plain .quotedText, n)
    else if c.isDigit then
      let (kind, n) := numberTail c cs
      some (.plain kind, n)
    else none

def nameShape? (c : Char) (cs : List Char) : Option (Shape × Nat) :=
  if beginsIdent c then some (.name, nameTail cs)
  else
    match c, cs with
    | '\\', d :: rest => if beginsIdent d then some (.name, 1 + nameTail rest) else none
    | _, _ => none

def shapeTail (c : Char) (cs : List Char) : Shape × Nat :=
  match c, cs with
  | '?', '>' :: rest => (.plain .closeTag, 1 + breakWidth rest)
  | _, _ =>
    if isBlank c then (.plain .whitespace, run isBlank cs)
    else
      match commentShape? c cs with
      | some r => r
      | none =>
        match literalShape? c cs with
        | some r => r
        | none =>
          match nameShape? c cs with
          | some r => r
          | none => (.sign, signTail c cs)

def ofShape (shape : Shape) (text : List Char) : List Piece :=
  match shape with
  | .plain kind => [⟨kind, text⟩]
  | .docComment => ⟨.docOpen, text.take 3⟩ :: docParts false (text.drop 3)
  | .name => [⟨nameKind text, text⟩]
  | .sign => [⟨Kind.ofSign (String.ofList text), text⟩]

/-- The pieces of a source text, `php` telling whether it starts inside PHP code. -/
def cut (php : Bool) : List Char → List Piece
  | [] => []
  | c :: cs =>
    if php then
      let (shape, n) := shapeTail c cs
      ofShape shape (c :: cs.take n) ++ cut (shape != .plain .closeTag) (cs.drop n)
    else
      match beforeTag (c :: cs) with
      | 0 =>
        let n := 1 + tagTail (cs.drop 1)
        ⟨.openTag, c :: cs.take n⟩ :: cut true (cs.drop n)
      | n + 1 => ⟨.inlineHtml, c :: cs.take n⟩ :: cut false (cs.drop n)
termination_by cs => cs.length
decreasing_by
  all_goals
    simp only [List.length_drop, List.length_cons]
    omega

end Piece
end PhpDoc
