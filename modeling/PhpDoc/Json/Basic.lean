/-!
JSON values. A number is kept as it is written, and an object as its members in order.
-/
namespace PhpDoc

inductive JsonValue
  | null
  | boolean (b : Bool)
  | number (digits : String)
  | string (s : String)
  | array (items : List JsonValue)
  | object (members : List (String × JsonValue))
deriving Repr, Inhabited

namespace JsonValue

def string? : JsonValue → Option String
  | string s => some s
  | _ => none

def strings? : JsonValue → Option (List String)
  | array items => items.mapM string?
  | _ => none

def boolean? : JsonValue → Option Bool
  | boolean b => some b
  | _ => none

end JsonValue
end PhpDoc
