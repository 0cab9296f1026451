import PhpDoc.Command.Arguments
import PhpDoc.Config
import PhpDoc.Listing.Layout
/-!
What a command line asks for.
-/
namespace PhpDoc

inductive Request
  | check (paths : List String) (format : Option Format) (config : Option String)
      (overrides : Config.Overrides)
  | parseType (text : String) (wide : Bool) (nameSpace : Option String)
  | compare (wide narrow : String)
deriving Repr, Inhabited

/-- A command line that does not ask for anything to be done: it wants to be told how the program is
used or which version it is, or it makes no sense. -/
inductive Stop
  | help
  | version
  | misuse
deriving DecidableEq, Repr, Inhabited

def Stop.status : Stop → Nat
  | .help => 0
  | .version => 0
  | .misuse => 2

namespace Request

open Arguments

def helpSwitch : Switch :=
  ⟨"help", ["-h", "--help"], false⟩

def programShape : Shape where
  switches := [
    helpSwitch,
    ⟨"version", ["--version"], false⟩,
    ⟨"verbose", ["-v", "--verbose"], false⟩]
  places := [.rest]

def checkShape : Shape where
  switches := [
    helpSwitch,
    ⟨"format", ["-f", "--format"], true⟩,
    ⟨"config", ["--config"], true⟩,
    ⟨"no-style", ["--no-style"], false⟩,
    ⟨"check-has-docs", ["--check-has-docs"], false⟩,
    ⟨"fix", ["--fix"], false⟩]
  places := [.some]

def parseTypeShape : Shape where
  switches := [helpSwitch, ⟨"wide", ["--wide"], false⟩, ⟨"namespace", ["--namespace"], true⟩]
  places := [.one]

def compareShape : Shape where
  switches := [helpSwitch]
  places := [.one, .one]

structure Collected where
  given : List Given := []
  places : List (List String) := []
  extra : Bool := false
deriving Repr, Inhabited

namespace Collected

def has (c : Collected) (key : String) : Bool :=
  c.given.any fun g => g.1.key == key

def last? (c : Collected) (key : String) : Option Given :=
  c.given.reverse.find? fun g => g.1.key == key

def value? (c : Collected) (key : String) : Option String :=
  (c.last? key).bind (·.2)

def format? (c : Collected) : Option Format :=
  match c.last? "format" with
  | some g => g.2.bind Format.ofLabel?
  | none => some .text

def count (c : Collected) (key : String) : Nat :=
  c.given.countP fun g => g.1.key == key

end Collected

def allows (g : Given) : Bool :=
  g.1.key != "format" || g.2.all fun name => (Format.ofLabel? name).isSome

def collect (c : Collected) : List Part → Except Stop Collected
  | [] => .ok c
  | .given g :: rest =>
    if g.1.key = "help" then .error .help
    else if g.1.key = "version" then .error .version
    else if allows g then collect { c with given := c.given ++ [g] } rest
    else .error .misuse
  | .place texts :: rest => collect { c with places := c.places ++ [texts] } rest
  | .extra _ :: rest => collect { c with extra := true } rest
  | .mistake :: _ => .error .misuse

def collected (shape : Shape) (texts : List String) : Except Stop Collected := do
  let c ← collect {} (parts shape texts)
  if c.extra then throw .misuse else return c

def ofCommand (name : String) (texts : List String) : Except Stop Request := do
  match name with
  | "check" =>
    let c ← collected checkShape texts
    return .check c.places.flatten c.format? (c.value? "config")
      { checksStyle := if c.has "no-style" then some false else none
        checksDocs := if c.has "check-has-docs" then some true else none
        fixes := if c.has "fix" then some true else none }
  | "parse-type" =>
    let c ← collected parseTypeShape texts
    return .parseType (c.places.flatten.headD "") (c.has "wide") (c.value? "namespace")
  | "compare" =>
    let c ← collected compareShape texts
    match c.places.flatten with
    | [wide, narrow] => return .compare wide narrow
    | _ => throw .misuse
  | _ => throw .misuse

def ofArguments (texts : List String) : Except Stop (Option Request × Nat) := do
  let c ← collect {} (parts programShape texts)
  let request ← match c.places.flatten with
    | [] => pure none
    | name :: rest => some <$> ofCommand name rest
  if c.extra then throw .misuse
  return (request, c.count "verbose")

end Request
end PhpDoc
