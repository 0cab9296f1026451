import PhpDoc.Check.Asked
import PhpDoc.Check.Fix
import PhpDoc.Outline.Walk
import PhpDoc.Source.Tokenize
/-!
The check of a file. A first walk finds the classes it declares; a second one, with the templates
bound by what the first one found, looks at the documentation.
-/
namespace PhpDoc
namespace Check

def walkEntry (pass : Nat) (level : LogLevel) (message : String) : LogEntry :=
  ⟨level, LogEntry.part "scanner", "pass " ++ toString pass ++ message⟩

def walkLog (pass : Nat) : Visit → List LogEntry
  | .nameSpace name => [walkEntry pass .debug (": namespace " ++ if name = "" then "\\" else name)]
  | .imported name short => [walkEntry pass .debug (": use \\" ++ name ++ " as " ++ short)]
  | .classLike name parent interfaces =>
    [walkEntry pass .debug (": classish " ++ name.getD "(anonymous)" ++ " extends " ++
      parent.getD "None" ++ " implements " ++ Text.quotedList interfaces)]
  | .function name => [walkEntry pass .debug (": function " ++ name.getD "(anonymous)")]
  | .declared names => [walkEntry pass .debug (": variable " ++ Text.quotedList names)]
  | .fault e => [walkEntry pass .info (": resynchronising after " ++ e.text)]
  | _ => []

def commentEntry (c : DocComment) : LogEntry :=
  .trace "cursor" ("comment at token " ++ toString c.place ++ " has tags " ++
    Text.quotedList (Config.sortedUnique c.names))

def Asked.visit (config : Config) (h : Hierarchy) (ts : Tokens) : Visit → List Event
  | .comment c => [.note (commentEntry c) false]
  | .templates scope c => templates config h scope (templateTags c)
  | .classDocs scope c => classLike config h scope c
  | .functionDocs scope place name c => function config h scope ts place name c
  | .variableDocs scope place names c written => variableDocs config h scope place names c written
  | .fault e => [.finding .parseError (e.place.getD (ts.size - 1)) [e.message]]
  | _ => []

def Asked.visitWithLog (config : Config) (h : Hierarchy) (ts : Tokens) (v : Visit) : List Event :=
  Asked.visit config h ts v ++ (walkLog 2 v).map fun entry => .note entry false

def visit (h : Hierarchy) (ts : Tokens) : Visit → List Event
  | .comment c => [.note (commentEntry c) false]
  | .templates scope c => templates h scope (templateTags c)
  | .classDocs scope c => classLike h scope c
  | .functionDocs scope place name c => function h ts scope place name c
  | .variableDocs scope place names c written => variableDocs h scope place names c written
  | .fault e => [.finding .parseError (e.place.getD (ts.size - 1)) [e.message]]
  | _ => []

def visitWithLog (h : Hierarchy) (ts : Tokens) (v : Visit) : List Event :=
  visit h ts v ++ (walkLog 2 v).map fun entry => .note entry false

def hierarchy (ts : Tokens) : Hierarchy :=
  Visit.hierarchy (Outline.visits .none ts)

def asked (config : Config) (ts : Tokens) : List Event :=
  let h := hierarchy ts
  (Outline.visits (bindTemplates h) ts).flatMap (Asked.visitWithLog config h ts)

def events (ts : Tokens) : List Event :=
  let h := hierarchy ts
  (Outline.visits (bindTemplates h) ts).flatMap (visitWithLog h ts)

def startEntry (pass : Nat) (ts : Tokens) : LogEntry :=
  walkEntry pass .debug (" over " ++ toString ts.size ++ " tokens")

def firstLog (ts : Tokens) : List LogEntry :=
  startEntry 1 ts :: (Outline.visits .none ts).flatMap (walkLog 1)

def run (config : Config) (r : Report) : Report × List LogEntry :=
  let (done, log) := r.enterAll (asked config r.tokens)
  let names := Config.sortedUnique ((hierarchy r.tokens).map (·.1))
  (done, firstLog r.tokens ++ startEntry 2 r.tokens :: log ++
    [.trace "scanner" ("artifacts: " ++ Text.quotedList names)])

end Check

def Report.begin (config : Config) (file : String) (ts : Tokens) : Report :=
  { file, tokens := ts, fixing := config.fixes, disabled := config.disabled }

def check (config : Config) (file source : String) : Report :=
  (Check.run config (.begin config file (tokenize source))).1

end PhpDoc
