import PhpDoc.Json.Leaf
/-!
Reading a JSON text. A text that is not JSON is refused with the number of the line on which reading
gives up; for a malformed string that is the line on which it starts.
-/
namespace PhpDoc.JsonValue

abbrev Reading (α : Type) := Except (List Char) (α × List Char)

def leaf (s : List Char) : Reading JsonValue :=
  match word? s <|> number? s with
  | some r => .ok r
  | none => .error s

mutual

/-- Reads a value. The bound counts the values that may be nested or follow one another; no text has
more of them than characters. -/
def value (bound : Nat) (s : List Char) : Reading JsonValue :=
  match bound with
  | 0 => .error s
  | bound + 1 =>
    match s with
    | '"' :: t =>
      match stringAfter? t with
      | some (text, rest) => .ok (string text, rest)
      | none => .error s
    | '[' :: t =>
      match skipSpace t with
      | ']' :: rest => .ok (array [], rest)
      | t => (items bound t).map fun r => (array r.1, r.2)
    | '\x7b' :: t =>
      match skipSpace t with
      | '\x7d' :: rest => .ok (object [], rest)
      | t => (members bound t).map fun r => (object r.1, r.2)
    | _ => leaf s

def items (bound : Nat) (s : List Char) : Reading (List JsonValue) :=
  match bound with
  | 0 => .error s
  | bound + 1 =>
    match value bound s with
    | .error t => .error t
    | .ok (item, t) =>
      match skipSpace t with
      | ']' :: rest => .ok ([item], rest)
      | ',' :: t => (items bound (skipSpace t)).map fun r => (item :: r.1, r.2)
      | t => .error t

def members (bound : Nat) (s : List Char) : Reading (List (String × JsonValue)) :=
  match bound with
  | 0 => .error s
  | bound + 1 =>
    match s with
    | '"' :: t =>
      match stringAfter? t with
      | none => .error s
      | some (name, t) =>
        match skipSpace t with
        | ':' :: t =>
          match value bound (skipSpace t) with
          | .error t => .error t
          | .ok (v, t) =>
            match skipSpace t with
            | '\x7d' :: rest => .ok ([(name, v)], rest)
            | ',' :: t => (members bound (skipSpace t)).map fun r => ((name, v) :: r.1, r.2)
            | t => .error t
        | t => .error t
    | _ => .error s

end

def whole (s : List Char) : Except (List Char) JsonValue :=
  if s.head? = some '\uFEFF' then .error s
  else
    match value (2 * s.length + 2) (skipSpace s) with
    | .error t => .error t
    | .ok (v, t) => if (skipSpace t).isEmpty then .ok v else .error (skipSpace t)

def lineOf (s rest : List Char) : Nat :=
  (s.take (s.length - rest.length)).count '\n' + 1

def read (s : List Char) : Except Nat JsonValue :=
  (whole s).mapError (lineOf s)

end PhpDoc.JsonValue
