import PhpDoc.Command.Path
import PhpDoc.Config
import PhpDoc.Log
import PhpDoc.Text.Styled
/-!
What the program needs from the machine it runs on. The commands are written against this record, so
that they can run over a real file system as well as over files given as data.
-/
namespace PhpDoc

inductive FileKind
  | file
  | directory
deriving DecidableEq, Repr, Inhabited

/-- Access to files, output and log. `colour` is how the output shows colours, if it does, and
`filesBelow` tells all files of a directory and of the directories in it, in any order. -/
structure Host (m : Type → Type) where
  directory : Path
  home : Path
  colour : Option Styler
  kind? : Path → m (Option FileKind)
  read : Path → m (Except ReadFault String)
  filesBelow : Path → m (List Path)
  write : Path → String → m Unit
  print : String → m Unit
  log : LogEntry → m Unit

namespace Host
variable {m : Type → Type}

def given (h : Host m) (text : String) : Path :=
  let p := Path.ofText text
  match p.origin, p.parts with
  | .here, "~" :: rest => Path.under h.home ⟨.here, rest⟩
  | _, _ => p

def resolved (h : Host m) (text : String) : Path :=
  (Path.under h.directory (h.given text)).settled

def tell (h : Host m) (level : LogLevel) (message : String) : m Unit :=
  h.log ⟨level, LogEntry.program, message⟩

end Host
end PhpDoc
