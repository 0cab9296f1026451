import PhpDoc.Check.File
import PhpDoc.Command.ConfigFile
import PhpDoc.Command.Request
/-!
The command that checks files. Directories stand for the files below them that have one of the
extensions of the configuration. Findings go to the output file by file, and files with fixes are
written back.
-/
namespace PhpDoc
namespace Command

variable {m : Type → Type} [Monad m]

def statusOk : Nat := 0

def statusErrors : Nat := 1

def statusFailed : Nat := 2

def filesAt (h : Host m) (extensions : List String) (p : Path) : m (Option (List Path)) := do
  match ← h.kind? p with
  | none => return none
  | some .file => return some [p]
  | some .directory =>
    let below := (← h.filesBelow p).filter fun f => extensions.contains f.suffix
    return some (below.mergeSort Path.le)

def filesOf (h : Host m) (extensions : List String) : List String → m (Option (List Path))
  | [] => return some []
  | text :: rest => do
    let p := h.resolved text
    match ← filesAt h extensions p with
    | none =>
      h.tell .error ("path not found: " ++ p.text)
      return none
    | some found =>
      return (← filesOf h extensions rest).map (found ++ ·)

def checkFile (h : Host m) (config : Config) (layout : Layout) (t : Tally) (p : Path) :
    m (Option Tally) := do
  h.tell .info ("Scanning " ++ p.text)
  match ← h.read p with
  | .error _ =>
    h.tell .error ("Cannot read " ++ p.text)
    return none
  | .ok source =>
    let (r, log) := Check.run config (Report.begin config p.text (tokenize source))
    log.forM h.log
    h.print (layout.report r source)
    h.tell .info (p.text ++ ": " ++ toString (r.count .error) ++ " error(s), " ++
      toString (r.count .warning) ++ " warning(s)")
    if config.fixes && r.fixes ≠ 0 then
      h.write p r.source
      h.tell .info ("Wrote " ++ toString r.fixes ++ " fix(es) to " ++ p.text)
    return some (t.addReport r)

/-- Checks files one after another up to one that cannot be read. Yields the counts, and whether all
files were read. -/
def checkAll (h : Host m) (config : Config) (layout : Layout) (t : Tally) :
    List Path → m (Tally × Bool)
  | [] => return (t, true)
  | p :: rest => do
    match ← checkFile h config layout t p with
    | some t => checkAll h config layout t rest
    | none => return (t, false)

def checkFiles (h : Host m) (config : Config) (format : Format) (files : List Path) : m Nat := do
  let layout : Layout := { format, colour := h.colour }
  let (t, complete) ← checkAll h config layout {} files
  h.print (layout.summary t)
  if !complete then return statusFailed
  else if t.errors ≠ 0 then return statusErrors
  else return statusOk

def check (h : Host m) (paths : List String) (format : Option Format) (configPath : Option String)
    (overrides : Config.Overrides) : m (Option Nat) := do
  match ← findConfig h configPath with
  | .error e =>
    h.tell .error ("Configuration error: " ++ e.text)
    return statusFailed
  | .ok loaded =>
    let config := loaded.overridden overrides
    match ← filesOf h config.extensions paths with
    | none => return statusFailed
    | some files =>
      h.tell .info ("Checking " ++ toString files.length ++ " file(s)")
      match format with
      | some format => checkFiles h config format files
      | none => return none

end Command
end PhpDoc
