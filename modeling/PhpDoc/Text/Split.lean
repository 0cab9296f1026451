/-!
Cutting a text at a separating character and joining the pieces again.
-/
namespace PhpDoc.Text

def pieces (sep : Char) (s : String) : List String :=
  (s.toList.splitOn sep).map String.ofList

def glue (sep : String) (parts : List String) : String :=
  sep.intercalate parts

def firstPiece (sep : Char) (s : String) : String :=
  String.ofList (s.toList.takeWhile (· ≠ sep))

def lastPiece (sep : Char) (s : String) : String :=
  String.ofList (s.toList.reverse.takeWhile (· ≠ sep)).reverse

def dropLeading (c : Char) (s : String) : String :=
  String.ofList (s.toList.dropWhile (· = c))

def dropFirst (n : Nat) (s : String) : String :=
  String.ofList (s.toList.drop n)

def slice (s : String) (start stop : Nat) : String :=
  String.ofList ((s.toList.take stop).drop start)

def beginsWith (start s : String) : Bool :=
  start.toList.isPrefixOf s.toList

end PhpDoc.Text
