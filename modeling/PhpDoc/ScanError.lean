import PhpDoc.Text.Quoted
/-!
The reasons for which a statement cannot be followed, with the token at which each was noticed.
-/
namespace PhpDoc

inductive ScopeKind
  | root
  | nameSpace
  | classLike
  | function
  | parameters
  | other
deriving DecidableEq, Repr, Inhabited

def ScopeKind.label : ScopeKind → String
  | .root => "root"
  | .nameSpace => "namespace"
  | .classLike => "classish"
  | .function => "function"
  | .parameters => "parameters"
  | .other => "other"

inductive ScanFault
  | nesting (inner outer : ScopeKind)
  | endOfFile
  | expected (kind found : String)
  | unterminatedComment
  | strayBrace
  | unbalanced
  | malformedNamespace
  | misplacedImport
  | notImportable (found : String)
  | missingParameters
  | malformedCapture
  | unterminatedDeclaration
deriving DecidableEq, Repr

def ScanFault.message : ScanFault → String
  | .nesting inner outer => "unexpected " ++ inner.label ++ " scope inside " ++ outer.label ++ " scope"
  | .endOfFile => "unexpected end of file"
  | .expected kind found => "expected " ++ Text.quoted kind ++ ", found " ++ Text.quoted found
  | .unterminatedComment => "unterminated documentation comment"
  | .strayBrace => "unmatched '\x7d'"
  | .unbalanced => "unbalanced brackets"
  | .malformedNamespace => "malformed namespace declaration"
  | .misplacedImport => "unexpected use statement"
  | .notImportable found => "expected a name to import, found " ++ Text.quoted found
  | .missingParameters => "function without a parameter list"
  | .malformedCapture => "malformed closure use list"
  | .unterminatedDeclaration => "declaration without a terminating ';'"

structure ScanError where
  fault : ScanFault
  place : Option Nat
deriving DecidableEq, Repr

namespace ScanError

def message (e : ScanError) : String :=
  e.fault.message

def located (message : String) : Option Int → String
  | some i => "token " ++ toString i ++ ": " ++ message
  | none => message

def text (e : ScanError) : String :=
  located e.message (e.place.map Int.ofNat)

end ScanError
end PhpDoc
