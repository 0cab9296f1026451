import PhpDoc.Text.Lines
import PhpDoc.Type.Grammar
/-!
What a tag says: a type, perhaps a variable, and a remark. The type is read as far as it goes; if
it is missing or malformed, reading goes on where it should have stood.
-/
namespace PhpDoc

/-- How much of a tag is read: the type; also a variable; also the signs for passing by reference
and for further arguments before it; also a default value `null` after it. -/
inductive Extent
  | type
  | variable
  | modifiers
  | default
deriving DecidableEq, Repr, Inhabited

namespace Extent

def hasVariable (e : Extent) : Bool :=
  e != .type

def hasModifiers (e : Extent) : Bool :=
  e == .modifiers || e == .default

end Extent

/-- What is read from a tag. `name` is the variable or template, `spelled` the text of the type in
its recommended spelling and `span` its place. A type counts as nullable by what is written, before
a default value widens it. -/
structure TypedTag where
  type : Option DocType
  name : Option String := none
  remainder : String := ""
  nullable : Bool := false
  modifiers : String := ""
  spelled : Option String := none
  span : Option (Nat × Nat) := none
  masks : Nat := 0
deriving DecidableEq, Repr

namespace TypedTag

def isDelimited (l : Option Lexeme) : Bool :=
  l.all fun l => l.spaced || Words.delimiters.contains l.text

def endsType (e : Extent) (l : Option Lexeme) : Bool :=
  isDelimited l || (e.hasVariable && l.any fun l =>
    ["&", "..."].contains l.text || l.kind == .variable)

def gap (text : List Char) (start stop : Nat) : List Char :=
  let between := (text.take stop).drop start
  if between.any fun c => c = '\n' ∨ c = '\r' then [' '] else between

def respell (words : List Nat) (l : Lexeme) : String :=
  if words.contains l.start then Words.respell l.text else l.text

def spellAfter (text : List Char) (words : List Nat) (last : Nat) : List Lexeme → List Char
  | [] => []
  | l :: ls =>
    gap text last l.start ++ (respell words l).toList ++ spellAfter text words l.stop ls

def spell (text : List Char) (words : List Nat) (ls : List Lexeme) : String :=
  match ls with
  | [] => ""
  | l :: ls => String.ofList ((respell words l).toList ++ spellAfter text words l.stop ls)

structure Reading where
  type : DocType
  spelled : String
  span : Nat × Nat

/-- Reads a type that is set off from what follows, and yields it with the reader after it. On
failure the count is that of the bit masks that could not be read. -/
def readType (c : Context) (text : List Char) (e : Extent) (s : Reader) :
    Except Malformed (Reading × Reader) :=
  match Grammar.type c s with
  | .error f => .error f
  | .ok (t, after) =>
    let read := s.rest.take (s.rest.length - after.rest.length)
    match read, endsType e after.rest.head? with
    | first :: _, true =>
      let stop := (read.getLast?.map Lexeme.stop).getD first.stop
      .ok (⟨t, spell text after.words read, (first.start, stop)⟩, after)
    | _, _ => .error {}

def readVariable (e : Extent) (s : Reader) : Option ((String × String) × Reader) :=
  let sign (text : String) (s : Reader) : String × Reader :=
    match s.rest with
    | l :: rest => if e.hasModifiers && l.text == text then (text, { s with rest }) else ("", s)
    | [] => ("", s)
  let (reference, s) := sign "&" s
  let (splat, s) := sign "..." s
  match s.rest with
  | l :: rest =>
    let ended := isDelimited rest.head? ||
      (e == .default && rest.head?.any fun l => l.text == "=")
    if l.kind == .variable && ended then
      some ((l.text, reference ++ splat), { s with rest })
    else none
  | [] => none

def seesNullDefault (s : Reader) : Bool :=
  match s.rest with
  | equal :: value :: _ => equal.text == "=" && Text.fold value.text == "null"
  | _ => false

def remainderOf (text : List Char) (stop : Nat) (s : Reader) : String :=
  String.ofList (Text.trimList (text.drop ((s.rest.head?.map Lexeme.start).getD stop)))

def read (c : Context) (text : String) (e : Extent := .type) : TypedTag :=
  let chars := text.toList
  let lexing := lex text
  let start : Reader := { rest := lexing.lexemes }
  let reading := readType c chars e start
  let after := match reading with
    | .ok (_, s) => s
    | .error _ => start
  let type := reading.toOption.map (·.1.type)
  let target := if e.hasVariable then readVariable e after else none
  let rest := (target.map (·.2)).getD after
  let widened := type.map fun t =>
    if e == .default && target.isSome && seesNullDefault rest then
      c.hierarchy.union (t.members ++ [["null"]])
    else t
  { type := widened
    name := target.map (·.1.1)
    remainder := remainderOf chars lexing.stop rest
    nullable := type.any DocType.isNullable
    modifiers := (target.map (·.1.2)).getD ""
    spelled := reading.toOption.map (·.1.spelled)
    span := reading.toOption.map (·.1.span)
    masks := match reading with
      | .ok _ => 0
      | .error f => f.masks }

def seesBound (l : Option Lexeme) : Bool :=
  l.any fun l => l.text == "of" || l.text == "as"

def readTemplateName (s : Reader) : Option String × Reader :=
  match s.rest with
  | l :: rest =>
    let named := l.kind == .name && (l.text.toList.head?).any Char.isAlpha
    if named && (isDelimited rest.head? || seesBound rest.head?) then (some l.text, { rest })
    else (none, s)
  | [] => (none, s)

def readTemplate (c : Context) (text : String) : TypedTag :=
  let chars := text.toList
  let lexing := lex text
  let (name, after) := readTemplateName { rest := lexing.lexemes }
  if seesBound after.rest.head? then
    let bound : Reader := { rest := after.rest.tail }
    match readType c chars .type bound with
    | .ok (reading, s) =>
      { type := some reading.type
        name
        remainder := remainderOf chars lexing.stop s
        spelled := some reading.spelled
        span := some reading.span }
    | .error f =>
      { type := none, name, remainder := remainderOf chars lexing.stop bound, masks := f.masks }
  else { type := some .mixed, name, remainder := remainderOf chars lexing.stop after }

end TypedTag
end PhpDoc
