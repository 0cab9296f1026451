import PhpDoc.Type.Lexeme
import PhpDoc.Type.Words
/-!
Reading lexemes one after another. A reader holds the lexemes that are still to be read and notes
which type words it has passed, so that these can be given their recommended spelling.
-/
namespace PhpDoc

/-- The lexemes ahead, and the places of the type words read so far. -/
structure Reader where
  rest : List Lexeme
  words : List Nat := []
deriving DecidableEq, Repr

/-- The input is no type. `masks` counts the bit masks that could not be read. -/
structure Malformed where
  masks : Nat := 0
deriving DecidableEq, Repr

abbrev Parse := StateT Reader (Except Malformed)

namespace Parse
variable {α : Type}

def fail : Parse α :=
  throw {}

def next? : Parse (Option Lexeme) :=
  fun s => .ok (s.rest.head?, s)

def seesAt (n : Nat) (text : String) : Parse Bool :=
  fun s => .ok ((s.rest[n]?).any (·.text == text), s)

def sees (text : String) : Parse Bool :=
  seesAt 0 text

def take : Parse Lexeme := fun s =>
  match s.rest with
  | [] => .error {}
  | l :: rest => .ok (l, { s with rest })

def skip : Parse Unit := do
  let _ ← take

def expect (text : String) : Parse Unit := do
  if ← sees text then skip else fail

def accept (text : String) : Parse Unit := do
  if ← sees text then skip

def word : Parse String := fun s =>
  match s.rest with
  | [] => .error {}
  | l :: rest => .ok (l.text, { s with rest, words := l.start :: s.words })

/-- Reads items up to a lexeme before which no further item follows; `more` looks at the reader
after an item and tells whether to consume a separator. At most `bound` items are read. -/
def itemsTo (item : Parse α) (more : Parse Bool) : Nat → Parse (List α)
  | 0 => fail
  | bound + 1 => do
    let a ← item
    if ← more then
      skip
      return a :: (← itemsTo item more bound)
    else return [a]

def items (item : Parse α) (more : Parse Bool) : Parse (List α) := do
  itemsTo item more ((← get).rest.length + 1)

end Parse
end PhpDoc
