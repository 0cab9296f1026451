import PhpDoc.Check.Event
import PhpDoc.Finding.Report
import PhpDoc.Text.Lines
/-!
Entering events into a report. A type that is not in its recommended spelling is replaced where
fixes are wanted: the lines of the tag that hold it become one line.
-/
namespace PhpDoc

structure LinePosition where
  line : Nat
  column : Nat
deriving DecidableEq, Repr

def LinePosition.of (text : String) (i : Nat) : LinePosition :=
  let before := text.toList.take i
  ⟨before.count '\n', (before.reverse.takeWhile (· ≠ '\n')).length⟩

namespace Report

def linesHeld (r : Report) (first last : Nat) : Nat :=
  let texts := (r.tokens.extract first (last + 1)).toList.map (·.text)
  Text.lineBreaks (String.join texts).toList + 1

/-- Writes a type into the tag that holds it, within a changeset. The lines from the one on which the
type starts to the one on which it ends become one line; they have to be lines of the file as
well. -/
def writeType (r : Report) (tag : Tag) (span : Nat × Nat) (spelled : String) :
    Except (Failure FixError) Report :=
  let start := LinePosition.of tag.text span.1
  let stop := LinePosition.of tag.text span.2
  match tag.lines[start.line]?, tag.lines[stop.line]? with
  | some ⟨before, some first⟩, some ⟨after, some last⟩ =>
    let spanned : Int := stop.line - start.line + 1
    let held := r.linesHeld first last
    if held = spanned then
      r.replace first last
        (Text.slice before 0 start.column ++ spelled ++ Text.dropFirst stop.column after)
    else .error ⟨.lineCount spanned held, r⟩
  | _, _ => .error ⟨.offText, r⟩

/-- Writes a type into a tag as a changeset of its own. Where that fails the changeset stays open. -/
def fix (r : Report) (tag : Tag) (span : Nat × Nat) (spelled : String) :
    Except (Failure FixError) Report := do
  let r ← r.beginChanges
  let r ← r.writeType tag span spelled
  r.commit

def tell (r : Report) (f : Finding) : Report × List LogEntry :=
  (r.add f,
    if r.admits f then
      [.trace "diagnostics" (f.location.text ++ ": " ++ f.message ++ " [" ++ f.code ++ "]")]
    else [])

def findingOf (r : Report) (code : Code) (place : Nat) (args : List String) : Finding :=
  r.findingAt code.severity false code.template place code.id args

/-- Enters a spelling. A fix that is not made leaves a finding of its own. -/
def enterStyle (r : Report) (code : Code) (tag : Tag) (span : Nat × Nat) (spelled : String)
    (args : List String) : Report × List LogEntry :=
  let f := r.findingAt .warning true code.template tag.place code.id args
  let (told, log) := r.tell f
  if r.admits f && r.fixing then
    match told.fix tag span spelled with
    | .ok fixed => (fixed, log)
    | .error failed =>
      let message := failed.reason.message
      let left := failed.report.rollback
      let (last, more) := left.tell (left.findingOf .internalFix tag.place [message])
      let warning : LogEntry :=
        ⟨.warning, LogEntry.part "scanner",
          "fix at token " ++ toString tag.place ++ " abandoned: " ++ message⟩
      (last, log ++ warning :: more)
  else (told, log)

def enter (r : Report) : Event → Report × List LogEntry
  | .finding code place args => r.tell (r.findingOf code place args)
  | .style code tag span spelled args => r.enterStyle code tag span spelled args
  | .note entry _ => (r, [entry])

def enterAll (r : Report) : List Event → Report × List LogEntry
  | [] => (r, [])
  | e :: es =>
    let (r, log) := r.enter e
    let (r, rest) := enterAll r es
    (r, log ++ rest)

end Report
end PhpDoc
