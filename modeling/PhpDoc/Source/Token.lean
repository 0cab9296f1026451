/-!
Tokens of PHP source. Every token has a kind, its text and the place where it starts; brackets
know their group, and declaring keywords know their parameter list and body.
-/
namespace PhpDoc

inductive Kind
  | inlineHtml
  | openTag
  | closeTag
  | whitespace
  | comment
  | docOpen
  | docBlank
  | docStar
  | docTag
  | docText
  | docClose
  | variable
  | word
  | absoluteName
  | qualifiedName
  | relativeName
  | integer
  | decimal
  | quotedText
  | heredoc
  | namespaceKw
  | useKw
  | abstractKw
  | publicKw
  | protectedKw
  | privateKw
  | staticKw
  | readonlyKw
  | finalKw
  | classKw
  | interfaceKw
  | traitKw
  | enumKw
  | functionKw
  | closureKw
  | fnKw
  | varKw
  | constKw
  | declareKw
  | extendsKw
  | implementsKw
  | asKw
  | newKw
  | anonymousClassKw
  | nullKw
  | trueKw
  | falseKw
  | selfKw
  | parentKw
  | arrayKw
  | callableKw
  | otherKw
  | openBrace
  | closeBrace
  | openParen
  | closeParen
  | openBracket
  | closeBracket
  | attributeOpen
  | semicolon
  | comma
  | colon
  | doubleColon
  | backslash
  | equal
  | doubleArrow
  | ellipsis
  | ampersand
  | pipe
  | question
  | arrow
  | operator
deriving DecidableEq, Repr, Inhabited

namespace Kind

def label : Kind → String
  | .inlineHtml => "inline_html"
  | .openTag => "open_tag"
  | .closeTag => "close_tag"
  | .whitespace => "whitespace"
  | .comment => "comment"
  | .docOpen => "doc_comment_open_tag"
  | .docBlank => "doc_comment_whitespace"
  | .docStar => "doc_comment_star"
  | .docTag => "doc_comment_tag"
  | .docText => "doc_comment_string"
  | .docClose => "doc_comment_close_tag"
  | .variable => "variable"
  | .word => "string"
  | .absoluteName => "name_fully_qualified"
  | .qualifiedName => "name_qualified"
  | .relativeName => "name_relative"
  | .integer => "lnumber"
  | .decimal => "dnumber"
  | .quotedText => "constant_encapsed_string"
  | .heredoc => "heredoc"
  | .namespaceKw => "namespace"
  | .useKw => "use"
  | .abstractKw => "abstract"
  | .publicKw => "public"
  | .protectedKw => "protected"
  | .privateKw => "private"
  | .staticKw => "static"
  | .readonlyKw => "readonly"
  | .finalKw => "final"
  | .classKw => "class"
  | .interfaceKw => "interface"
  | .traitKw => "trait"
  | .enumKw => "enum"
  | .functionKw => "function"
  | .closureKw => "closure"
  | .fnKw => "fn"
  | .varKw => "var"
  | .constKw => "const"
  | .declareKw => "declare"
  | .extendsKw => "extends"
  | .implementsKw => "implements"
  | .asKw => "as"
  | .newKw => "new"
  | .anonymousClassKw => "anon_class"
  | .nullKw => "null"
  | .trueKw => "true"
  | .falseKw => "false"
  | .selfKw => "self"
  | .parentKw => "parent"
  | .arrayKw => "array"
  | .callableKw => "callable"
  | .otherKw => "keyword"
  | .openBrace => "\x7b"
  | .closeBrace => "\x7d"
  | .openParen => "("
  | .closeParen => ")"
  | .openBracket => "["
  | .closeBracket => "]"
  | .attributeOpen => "#["
  | .semicolon => ";"
  | .comma => ","
  | .colon => ":"
  | .doubleColon => "::"
  | .backslash => "\\"
  | .equal => "="
  | .doubleArrow => "=>"
  | .ellipsis => "..."
  | .ampersand => "&"
  | .pipe => "|"
  | .question => "?"
  | .arrow => "->"
  | .operator => "operator"

def isDoc (k : Kind) : Bool :=
  [docOpen, docBlank, docStar, docTag, docText, docClose].contains k

def isFiller (k : Kind) : Bool :=
  k == whitespace || k == comment || k.isDoc

/-- Whatever does not matter to the grammar: fillers, the tags around PHP code and the text outside
of them. -/
def isTrivia (k : Kind) : Bool :=
  k.isFiller || k == inlineHtml || k == openTag || k == closeTag

def isName (k : Kind) : Bool :=
  [word, absoluteName, qualifiedName, relativeName].contains k

def isClassLike (k : Kind) : Bool :=
  [classKw, interfaceKw, traitKw, enumKw, anonymousClassKw].contains k

def isFunction (k : Kind) : Bool :=
  [functionKw, closureKw, fnKw].contains k

def closer? : Kind → Option Kind
  | openBrace => some closeBrace
  | openParen => some closeParen
  | openBracket => some closeBracket
  | attributeOpen => some closeBracket
  | _ => none

def isCloser (k : Kind) : Bool :=
  [closeBrace, closeParen, closeBracket].contains k

def keywords : List (String × Kind) := [
  ("namespace", .namespaceKw),
  ("use", .useKw),
  ("abstract", .abstractKw),
  ("public", .publicKw),
  ("protected", .protectedKw),
  ("private", .privateKw),
  ("static", .staticKw),
  ("readonly", .readonlyKw),
  ("final", .finalKw),
  ("class", .classKw),
  ("interface", .interfaceKw),
  ("trait", .traitKw),
  ("function", .functionKw),
  ("fn", .fnKw),
  ("var", .varKw),
  ("const", .constKw),
  ("declare", .declareKw),
  ("extends", .extendsKw),
  ("implements", .implementsKw),
  ("as", .asKw),
  ("new", .newKw),
  ("null", .nullKw),
  ("true", .trueKw),
  ("false", .falseKw),
  ("self", .selfKw),
  ("parent", .parentKw),
  ("array", .arrayKw),
  ("callable", .callableKw)]

def otherKeywords : List String := [
  "and", "break", "case", "catch", "clone", "continue", "default", "die", "do", "echo", "else",
  "elseif", "empty", "enddeclare", "endfor", "endforeach", "endif", "endswitch", "endwhile",
  "eval", "exit", "finally", "for", "foreach", "global", "goto", "if", "include", "include_once",
  "instanceof", "insteadof", "isset", "list", "match", "or", "print", "require", "require_once",
  "return", "switch", "throw", "try", "unset", "while", "xor", "yield"]

def signs : List (String × Kind) := [
  ("\x7b", .openBrace),
  ("\x7d", .closeBrace),
  ("(", .openParen),
  (")", .closeParen),
  ("[", .openBracket),
  ("]", .closeBracket),
  ("#[", .attributeOpen),
  (";", .semicolon),
  (",", .comma),
  (":", .colon),
  ("::", .doubleColon),
  ("\\", .backslash),
  ("=", .equal),
  ("=>", .doubleArrow),
  ("...", .ellipsis),
  ("&", .ampersand),
  ("|", .pipe),
  ("?", .question),
  ("->", .arrow),
  ("?->", .arrow)]

def ofSign (text : String) : Kind :=
  (signs.lookup text).getD .operator

end Kind

structure Group where
  opener : Nat
  closer : Nat
deriving DecidableEq, Repr, Inhabited

/-- A token. `group` is set for brackets that have a partner, `parameters` and `body` for keywords
that declare something, and `commentEnd` for the start of a documentation comment that has an
end. -/
structure Token where
  kind : Kind
  text : String
  line : Nat
  column : Nat
  group : Option Group := none
  parameters : Option Group := none
  body : Option Group := none
  commentEnd : Option Nat := none
deriving DecidableEq, Repr, Inhabited

abbrev Tokens := Array Token

namespace Tokens

def kind? (ts : Tokens) (i : Nat) : Option Kind :=
  ts[i]?.map (·.kind)

def source (ts : Tokens) : String :=
  String.join (ts.toList.map (·.text))

end Tokens
end PhpDoc
