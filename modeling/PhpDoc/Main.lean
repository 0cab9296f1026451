import PhpDoc.Command.Run
/-!
The program: the command line over the real file system, output and log.
-/
namespace PhpDoc.Main

def usage : String :=
  "usage: phpdoc-typecheck [-h] [--version] [-v] <command> ...\n\n" ++
  "commands:\n" ++
  "  check [-f text|cppcheck|json] [--config FILE] [--no-style] [--check-has-docs] [--fix] PATH...\n" ++
  "                          check PHP files or directories\n" ++
  "  parse-type [--wide] [--namespace NS] TEXT\n" ++
  "                          print the canonical form of a PHPDoc type\n" ++
  "  compare WIDE NARROW     check whether one type fits another\n"

def version : String := "0.1.0"

def kindAt? (p : Path) : IO (Option FileKind) := do
  try
    let real ← IO.FS.realPath p.text
    if !(← real.pathExists) then return none
    return some (if ← real.isDir then .directory else .file)
  catch _ => return none

def faultOf (p : Path) : IO.Error → IO ReadFault
  | .noFileOrDirectory .. => return .missing
  | .inappropriateType .. => return .notDirectory
  | .invalidArgument _ 36 _ => return .nameTooLong
  | _ => return if (← kindAt? p) = some .directory then .isDirectory else .denied

def readAt (p : Path) : IO (Except ReadFault String) := do
  try
    match String.fromUTF8? (← IO.FS.readBinFile p.text) with
    | some text => return .ok text
    | none => return .error .notText
  catch e => return .error (← faultOf p e)

def filesBelow (p : Path) : IO (List Path) := do
  let root ← IO.FS.realPath p.text
  let found ← root.walkDir
  let files ← found.filterM fun f => return !(← f.isDir)
  return files.toList.map fun f => Path.ofText f.toString

def host : IO (Host IO) := do
  let output ← IO.getStdout
  let directory ← IO.currentDir
  let home := (← IO.getEnv "HOME").getD "/"
  return {
    directory := Path.ofText directory.toString
    home := Path.ofText home
    colour := if ← output.isTty then some Text.styled else none
    kind? := kindAt?
    read := readAt
    filesBelow
    write := fun p text => IO.FS.writeFile p.text text
    print := fun text => output.putStr text
    log := fun e => IO.eprintln e.line }

end PhpDoc.Main

def main (arguments : List String) : IO UInt32 := do
  let ending ← PhpDoc.Command.run (← PhpDoc.Main.host) arguments
  match ending with
  | .stopped .help => IO.print PhpDoc.Main.usage
  | .stopped .version => IO.println ("phpdoc-typecheck " ++ PhpDoc.Main.version)
  | .stopped .misuse => IO.eprint PhpDoc.Main.usage
  | .idle => IO.eprint PhpDoc.Main.usage
  | .formatless => IO.eprintln PhpDoc.Format.unnamedMessage
  | .done _ => pure ()
  return ending.status.toUInt32
