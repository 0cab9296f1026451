import PhpDoc.DocComment
import PhpDoc.Finding.Code
import PhpDoc.Log
import PhpDoc.Text.Quoted
import PhpDoc.Type.TypedTag
/-!
What the checks come up with, before a configuration decides what is kept of it.
-/
namespace PhpDoc

/-- An event of a check: a finding at a token, a type in a tag that is not in its recommended
spelling, or a line for the log. -/
inductive Event
  | finding (code : Code) (place : Nat) (args : List String)
  | style (code : Code) (tag : Tag) (span : Nat × Nat) (spelled : String) (args : List String)
  | note (entry : LogEntry) (forDocs : Bool)
deriving Repr

namespace Event

def wanted (style docs : Bool) : Event → Bool
  | .finding code _ _ => docs || !code.asksForDocs
  | .style .. => style
  | .note _ forDocs => docs || !forDocs

def onTag (code : Code) (tag : Tag) (args : List String := []) : Event :=
  .finding code tag.place args

def when (condition : Bool) (e : Event) : List Event :=
  if condition then [e] else []

def reading (text : String) (typed : TypedTag) (forDocs : Bool := false) : List Event :=
  List.replicate typed.masks
    (.note (.trace "type_parser" ("invalid int mask in " ++ Text.quoted text)) forDocs)

def spelling (code : Code) (tag : Tag) (typed : TypedTag) (args : List String := []) :
    List Event :=
  match typed.spelled, typed.span with
  | some spelled, some span =>
    when (Text.slice tag.text span.1 span.2 != spelled) (.style code tag span spelled args)
  | _, _ => []

def misplaced (c : DocComment) (names : List String) : List Event :=
  (c.allNamed.filter fun t => names.contains t.name).map fun t => .onTag .tagMisplaced t [t.name]

end Event
end PhpDoc
