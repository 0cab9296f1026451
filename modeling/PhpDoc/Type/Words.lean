import PhpDoc.Text.Fold
/-!
The vocabulary of type expressions. Type words are lower case and stand only for themselves; a
class may not be named like one of them in any casing.
-/
namespace PhpDoc.Words

def bool : List String := ["bool", "boolean", "true", "false"]

def int : List String := ["int", "integer", "positive-int", "negative-int", "non-positive-int",
  "non-negative-int", "int-mask", "int-mask-of"]

def float : List String := ["float", "double"]

def string : List String := ["string", "class-string", "numeric-string", "literal-string",
  "non-empty-string", "non-falsy-string", "truthy-string"]

def array : List String := ["array", "non-empty-array", "list", "non-empty-list"]

def never : List String := ["never", "never-return", "never-returns", "no-return"]

def plain : List String := ["callable-string", "resource", "null", "void", "mixed", "array-key",
  "scalar"]

def special : List String := ["object", "self", "parent", "static", "callable", "iterable",
  "key-of", "value-of"]

def reserved : List String :=
  bool ++ int ++ float ++ string ++ array ++ never ++ plain ++ special

def isReserved (name : String) : Bool :=
  reserved.contains (Text.fold name)

def recommended : List (String × String) := [
  ("integer", "int"), ("boolean", "bool"), ("double", "float"), ("never-return", "never"),
  ("never-returns", "never"), ("no-return", "never")]

def respell (word : String) : String :=
  (recommended.lookup word).getD word

def delimiters : List String := [",", ";", ":", "."]

end PhpDoc.Words
