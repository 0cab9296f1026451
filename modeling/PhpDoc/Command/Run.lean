import PhpDoc.Command.Types
/-!
A run of the program: from the words of its command line to its exit status.
-/
namespace PhpDoc
namespace Command

variable {m : Type → Type} [Monad m]

/-- How a run ends: the command line is stopped at, it asks for nothing, what it asks for is done,
with an exit status, or it breaks off for want of a format. -/
inductive Ending
  | stopped (s : Stop)
  | idle
  | done (status : Nat)
  | formatless
deriving DecidableEq, Repr, Inhabited

def Ending.status : Ending → Nat
  | .stopped s => s.status
  | .idle => statusFailed
  | .done status => status
  | .formatless => statusErrors

def quietened (h : Host m) (least : LogLevel) : Host m :=
  { h with log := fun e => if e.isShown least then h.log e else pure () }

def run (h : Host m) (arguments : List String) : m Ending := do
  match Request.ofArguments arguments with
  | .error s => return .stopped s
  | .ok (none, _) => return .idle
  | .ok (some request, detail) =>
    match ← answer (quietened h (LogLevel.shownAt detail)) request with
    | some status => return .done status
    | none => return .formatless

end Command
end PhpDoc
