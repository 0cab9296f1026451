import PhpDoc.Command.Host
/-!
A machine given as data: the files below a working directory, what has been printed and what has been
logged. The program runs over it as it does over a real one.
-/
namespace PhpDoc

/-- The state of the machine. Directories and files are known by the names that lead to them from the
root; a file that does not hold text has no content. Besides the directories of the files there are
the working directory and those above it. -/
structure Machine where
  directory : List String := []
  home : List String := []
  files : List (List String × Option String) := []
  output : String := ""
  log : List LogEntry := []
deriving Repr, Inhabited

namespace Machine

def nameLimit : Nat := 255

def pathLimit : Nat := 4095

def kind? (s : Machine) (names : List String) : Option FileKind :=
  if s.files.any (·.1 == names) then some .file
  else if names.isPrefixOf s.directory || s.files.any fun f => names.isPrefixOf f.1 then
    some .directory
  else none

/-- The names to which a path leads from some others, where every step has to start at a directory.
Nothing is above the root. -/
def follow (s : Machine) (names : List String) : List String → Except ReadFault (List String)
  | [] => .ok names
  | part :: rest =>
    match s.kind? names with
    | some .directory =>
      if nameLimit < part.utf8ByteSize then .error .nameTooLong
      else follow s (if part = ".." then names.dropLast else names ++ [part]) rest
    | some .file => .error .notDirectory
    | none => .error .missing

def read (s : Machine) (p : Path) : Except ReadFault String :=
  if pathLimit < p.text.utf8ByteSize then .error .nameTooLong
  else do
    let names ← s.follow (if p.origin = .here then s.directory else []) p.parts
    match s.files.lookup names, s.kind? names with
    | some (some text), _ => .ok text
    | some none, _ => .error .notText
    | none, some _ => .error .isDirectory
    | none, none => .error .missing

def write (s : Machine) (names : List String) (text : String) : Machine :=
  { s with files := s.files.map fun f => if f.1 = names then (f.1, some text) else f }

def below (s : Machine) (names : List String) : List (List String) :=
  (s.files.map (·.1)).filter fun f => names.isPrefixOf f && f != names

def host (start : Machine) : Host (StateM Machine) where
  directory := ⟨.root, start.directory⟩
  home := ⟨.root, start.home⟩
  colour := none
  kind? p := return (← get).kind? p.parts
  read p := return (← get).read p
  filesBelow p := return ((← get).below p.parts).map fun f => ⟨.root, f⟩
  write p text := modify fun s => s.write p.parts text
  print text := modify fun s => { s with output := s.output ++ text }
  log e := modify fun s => { s with log := s.log ++ [e] }

end Machine
end PhpDoc
