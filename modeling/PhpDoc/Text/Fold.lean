/-!
Case folding for comparison with words of the ASCII alphabet. Of all other characters only the
kelvin sign has a letter of that alphabet as its lower case, so folding is a map on characters.
-/
namespace PhpDoc.Text

def foldChar (c : Char) : Char :=
  if c.toNat = 0x212A then 'k' else c.toLower

/-- Lower case, as far as a comparison with an ASCII word can tell. -/
def fold (s : String) : String :=
  String.ofList (s.toList.map foldChar)

end PhpDoc.Text
