import PhpDoc.Text.Decimal
import PhpDoc.Text.Split
/-!
The words of a command line. Options may stand anywhere among the other words, may be shortened as
long as they are told apart, and end at a word of two dashes; the words that are no options fill the
places of a command in order.
-/
namespace PhpDoc

structure Switch where
  key : String
  names : List String
  valued : Bool := false
deriving DecidableEq, Repr, Inhabited

inductive Arity
  | one
  | some
  | rest
deriving DecidableEq, Repr, Inhabited

structure Shape where
  switches : List Switch
  places : List Arity
deriving DecidableEq, Repr, Inhabited

namespace Arguments

/-- A word: one that fills a place, the two dashes, or an option, which is a known one or not and may
have a value joined to it. -/
inductive Word
  | plain (text : String)
  | dashes
  | option (switch : Option Switch) (name : String) (value : Option String) (text : String)
deriving DecidableEq, Repr, Inhabited

def Word.text : Word → String
  | .plain text => text
  | .dashes => "--"
  | .option _ _ _ text => text

def Word.isOption : Word → Bool
  | .option .. => true
  | _ => false

def named (switches : List Switch) (name : String) : Option Switch :=
  switches.find? fun s => s.names.contains name

def splitValue (text : String) : String × Option String :=
  let cs := text.toList
  match cs.dropWhile (· ≠ '=') with
  | [] => (text, none)
  | _ :: value => (String.ofList (cs.takeWhile (· ≠ '=')), some (String.ofList value))

/-- All options, under each of their names, that a word may be short for. A word of one dash may also
be a short name with a value, or more short names, joined to it. -/
def candidates (switches : List Switch) (text : String) :
    List (Switch × String × Option String) :=
  let all := switches.flatMap fun s => s.names.map fun name => (s, name)
  if Text.beginsWith "--" text then
    let (start, value) := splitValue text
    (all.filter fun p => Text.beginsWith start p.2).map fun p => (p.1, p.2, value)
  else
    let short := Text.slice text 0 2
    all.filterMap fun p =>
      if p.2 = short then some (p.1, p.2, some (Text.dropFirst 2 text))
      else if Text.beginsWith text p.2 then some (p.1, p.2, none)
      else none

def isNumeral (cs : List Char) : Bool :=
  let (whole, rest) := cs.span Text.isDecimal
  match rest with
  | [] => !whole.isEmpty
  | '.' :: places => !places.isEmpty && places.all Text.isDecimal
  | _ => false

def isNegativeNumber (text : String) : Bool :=
  match text.toList with
  | '-' :: cs => isNumeral (if cs.getLast? = some '\n' then cs.dropLast else cs)
  | _ => false

def wordOf? (switches : List Switch) (text : String) : Option Word :=
  if !Text.beginsWith "-" text || text = "-" then some (.plain text)
  else
    match named switches text with
    | some s => some (.option s text none text)
    | none =>
      let (name, value) := splitValue text
      match value, named switches name with
      | some v, some s => some (.option s name (some v) text)
      | _, _ =>
        match candidates switches text with
        | [(s, name, value)] => some (.option s name value text)
        | [] =>
          if isNegativeNumber text || text.toList.contains ' ' then some (.plain text)
          else some (.option none text none text)
        | _ => none

def words? (switches : List Switch) : List String → Option (List Word)
  | [] => some []
  | "--" :: rest => some (.dashes :: rest.map .plain)
  | text :: rest => do
    let word ← wordOf? switches text
    let words ← words? switches rest
    some (word :: words)

def skipDashes : List Word → List Word
  | .dashes :: ws => skipDashes ws
  | ws => ws

def fillPlace? (arity : Arity) (ws : List Word) : Option (List String × List Word) :=
  match arity, skipDashes ws with
  | .one, .plain text :: rest => some ([text], skipDashes rest)
  | .some, .plain text :: rest =>
    let (more, left) := rest.span fun w => !w.isOption
    some (text :: (more.filter (· ≠ .dashes)).map Word.text, left)
  | .rest, .plain _ :: _ => some (ws.map Word.text, [])
  | _, _ => none

def fillPlaces (places : List Arity) (ws : List Word) :
    List (List String) × List Arity × List Word :=
  match places with
  | [] => ([], [], ws)
  | p :: ps =>
    match fillPlace? p ws with
    | some (texts, left) =>
      let (more, rest) := fillPlaces ps left
      (texts :: more, rest)
    | none => ([], p :: ps, ws)

abbrev Given := Switch × Option String

def joined (value : String) : Option String :=
  if value = "--" then none else some value

/-- The options that a word gives, and the words after it and its value. Short names without values
may be joined. Nothing if a value is missing or not wanted. The bound counts joined names. -/
def givenBy? (switches : List Switch) (bound : Nat) (s : Switch) (name : String)
    (value : Option String) (rest : List Word) : Option (List Given × List Word) :=
  match bound with
  | 0 => none
  | bound + 1 =>
    match value, s.valued, rest with
    | some v, true, _ => some ([(s, joined v)], rest)
    | some v, false, _ =>
      if Text.beginsWith "--" name then none
      else
        match v.toList with
        | [] => none
        | c :: cs => do
          let next ← named switches (String.ofList ['-', c])
          let value := if cs.isEmpty then none else some (String.ofList cs)
          let (more, rest) ← givenBy? switches bound next (String.ofList ['-', c]) value rest
          some ((s, none) :: more, rest)
    | none, true, .plain v :: rest => some ([(s, some v)], rest)
    | none, true, _ => none
    | none, false, _ => some ([(s, none)], rest)

inductive Part
  | given (g : Given)
  | place (texts : List String)
  | extra (text : String)
  | mistake
deriving Repr, Inhabited

def upToOption (ws : List Word) : List Word × List Word :=
  ws.span fun w => !w.isOption

/-- The parts of a list of words. A place that is not filled is a mistake, unless it takes all that
is left. The bound counts the words. -/
def partsFrom (shape : Shape) : Nat → List Arity → List Word → List Part
  | 0, _, _ => [.mistake]
  | bound + 1, places, ws =>
    match ws with
    | .option (some s) name value text :: rest =>
      match givenBy? shape.switches (text.length + 1) s name value rest with
      | some (given, rest) => given.map .given ++ partsFrom shape bound places rest
      | none => [.mistake]
    | .option none _ _ text :: rest => .extra text :: partsFrom shape bound places rest
    | _ =>
      let (filled, places, left) := fillPlaces places ws
      let found := filled.map Part.place
      if left.any Word.isOption then
        if filled.isEmpty then
          let (extra, rest) := upToOption left
          extra.map (.extra ·.text) ++ partsFrom shape bound places rest
        else found ++ partsFrom shape bound places left
      else
        found ++ left.map (.extra ·.text) ++
          (if places.any (· ≠ .rest) then [.mistake] else [])

def parts (shape : Shape) (texts : List String) : List Part :=
  match words? shape.switches texts with
  | some ws => partsFrom shape (2 * ws.length + 2) shape.places ws
  | none => [.mistake]

end Arguments
end PhpDoc
