/-!
The log of a run: lines that tell what was done, each with a level and the part of the program that
wrote it.
-/
namespace PhpDoc

inductive LogLevel
  | debug
  | info
  | warning
  | error
deriving DecidableEq, Repr, Inhabited

namespace LogLevel

def label : LogLevel → String
  | .debug => "DEBUG"
  | .info => "INFO"
  | .warning => "WARNING"
  | .error => "ERROR"

def rank : LogLevel → Nat
  | .debug => 0
  | .info => 1
  | .warning => 2
  | .error => 3

def shownAt : Nat → LogLevel
  | 0 => .warning
  | 1 => .info
  | _ => .debug

end LogLevel

structure LogEntry where
  level : LogLevel
  writer : String
  message : String
deriving DecidableEq, Repr, Inhabited

namespace LogEntry

def program : String := "phpdoc_typecheck"

def part (name : String) : String :=
  program ++ "." ++ name

def trace (name message : String) : LogEntry :=
  ⟨.debug, part name, message⟩

def isShown (least : LogLevel) (e : LogEntry) : Bool :=
  least.rank ≤ e.level.rank

def line (e : LogEntry) : String :=
  let level := e.level.label.toList
  "[" ++ String.ofList (level.take 5 ++ List.replicate (5 - level.length) ' ') ++ "] " ++
    e.writer ++ ": " ++ e.message

end LogEntry
end PhpDoc
