import PhpDoc.Command.Host
import PhpDoc.Json.Read
import PhpDoc.Text.Lines
/-!
Finding and reading the configuration file.
-/
namespace PhpDoc
namespace Command

variable {m : Type → Type} [Monad m]

def defaultConfigName : String := ".phpdoc-typecheck.json"

def configObject (source : String) : Except ConfigFault JsonValue :=
  match JsonValue.read (Text.unifyBreaks source.toList) with
  | .error line => .error (.malformed line)
  | .ok (.object members) => .ok (.object members)
  | .ok _ => .error .notObject

def configAt (h : Host m) (p : Path) : m (Except ConfigError Config) := do
  let refuse (fault : ConfigFault) : Except ConfigError Config := .error ⟨fault, some p.text⟩
  match ← h.read p with
  | .error fault => return refuse (.unreadable fault)
  | .ok source =>
    match configObject source with
    | .error fault => return refuse fault
    | .ok v =>
      h.log ⟨.info, LogEntry.part "config", "Loaded configuration from " ++ p.text⟩
      return (Config.ofJson v).mapError fun fault => ⟨fault, some p.text⟩

def findConfig (h : Host m) (explicit : Option String) : m (Except ConfigError Config) := do
  match explicit with
  | some text =>
    if text ≠ "" then
      return ← configAt h (Path.ofText text)
  | none => pure ()
  let p := Path.under h.directory (Path.ofText defaultConfigName)
  match ← h.kind? p with
  | some .file => configAt h p
  | _ => return .ok {}

end Command
end PhpDoc
