import PhpDoc.Finding.Code
import PhpDoc.Json.Basic
/-!
The configuration of a run: which optional checks are made, whether fixes are, which files of a
directory are looked at and which findings are left out. It is read from a JSON object in which
every key may be missing.
-/
namespace PhpDoc

structure Config where
  checksStyle : Bool := true
  checksDocs : Bool := false
  fixes : Bool := false
  extensions : List String := [".php"]
  disabled : List String := []
deriving DecidableEq, Repr, Inhabited

inductive ReadFault
  | missing
  | isDirectory
  | notDirectory
  | nameTooLong
  | denied
  | notText
deriving DecidableEq, Repr, Inhabited

def ReadFault.message : ReadFault → String
  | .missing => "No such file or directory"
  | .isDirectory => "Is a directory"
  | .notDirectory => "Not a directory"
  | .nameTooLong => "File name too long"
  | .denied => "Permission denied"
  | .notText => "invalid text"

inductive ConfigFault
  | unreadable (fault : ReadFault)
  | malformed (line : Nat)
  | notObject
  | unknownKeys (keys : List String)
  | notBoolean (key : String)
  | notStrings (key : String)
  | unknownCodes (codes : List String)
deriving DecidableEq, Repr

def ConfigFault.message : ConfigFault → String
  | .unreadable fault => "cannot read configuration: " ++ fault.message
  | .malformed line => "invalid JSON at line " ++ toString line
  | .notObject => "configuration must be a JSON object"
  | .unknownKeys keys => "unknown configuration key(s): " ++ ", ".intercalate keys
  | .notBoolean key => key ++ " must be true or false"
  | .notStrings key => key ++ " must be a list of strings"
  | .unknownCodes codes => "unknown diagnostic code(s): " ++ ", ".intercalate codes

structure ConfigError where
  fault : ConfigFault
  path : Option String := none
deriving DecidableEq, Repr

namespace ConfigError

def located (message : String) (path : Option String) : String :=
  match path with
  | none | some "" => message
  | some p => p ++ ": " ++ message

def text (e : ConfigError) : String :=
  located e.fault.message e.path

end ConfigError

namespace Config

def sortedUnique (ss : List String) : List String :=
  (ss.mergeSort fun a b => !decide (b < a)).eraseDups

def keys : List String :=
  ["check_style", "check_has_docs", "fix", "extensions", "disabled_codes"]

def valueOf? (members : List (String × JsonValue)) (key : String) : Option JsonValue :=
  members.reverse.lookup key

def setting {α : Type} (members : List (String × JsonValue)) (key : String)
    (read? : JsonValue → Option α) (fault : String → ConfigFault) (default : α) :
    Except ConfigFault α :=
  match valueOf? members key with
  | none => .ok default
  | some v =>
    match read? v with
    | some x => .ok x
    | none => .error (fault key)

/-- Reads a configuration from the members of an object. Of several faults the first one counts:
unknown keys, then truth values, then lists, then unknown codes. -/
def ofMembers (members : List (String × JsonValue)) : Except ConfigFault Config := do
  let unknown := (members.map (·.1)).filter fun k => !keys.contains k
  if !unknown.isEmpty then
    throw (.unknownKeys (sortedUnique unknown))
  let checksStyle ← setting members "check_style" JsonValue.boolean? .notBoolean true
  let checksDocs ← setting members "check_has_docs" JsonValue.boolean? .notBoolean false
  let fixes ← setting members "fix" JsonValue.boolean? .notBoolean false
  let extensions ← setting members "extensions" JsonValue.strings? .notStrings [".php"]
  let disabled ← setting members "disabled_codes" JsonValue.strings? .notStrings []
  let foreign := disabled.filter fun id => (Code.ofId? id).isNone
  if !foreign.isEmpty then
    throw (.unknownCodes (sortedUnique foreign))
  return { checksStyle, checksDocs, fixes, extensions, disabled := sortedUnique disabled }

def ofJson (v : JsonValue) : Except ConfigFault Config :=
  match v with
  | .object members => ofMembers members
  | _ => .error .notObject

structure Overrides where
  checksStyle : Option Bool := none
  checksDocs : Option Bool := none
  fixes : Option Bool := none
  extensions : Option (List String) := none
  disabled : Option (List String) := none
deriving DecidableEq, Repr, Inhabited

def overridden (c : Config) (o : Overrides) : Config :=
  { c with
    checksStyle := o.checksStyle.getD c.checksStyle
    checksDocs := o.checksDocs.getD c.checksDocs
    fixes := o.fixes.getD c.fixes
    extensions := o.extensions.getD c.extensions
    disabled := (o.disabled.map sortedUnique).getD c.disabled }

end Config
end PhpDoc
