/-!
Text for a terminal: colours and weights. What is listed is written against any way of showing them; the
program shows them by control sequences around a text.
-/
namespace PhpDoc

inductive Colour
  | red
  | green
  | yellow
  | blue
deriving DecidableEq, Repr, Inhabited

def Colour.number : Colour → Nat
  | .red => 31
  | .green => 32
  | .yellow => 33
  | .blue => 34

inductive Weight
  | bold
  | dark
deriving DecidableEq, Repr, Inhabited

def Weight.number : Weight → Nat
  | .bold => 1
  | .dark => 2

/-- A way to show a text in a weight and, if one is given, a colour. -/
abbrev Styler := Weight → Option Colour → String → String

namespace Text

def control (n : Nat) : String :=
  "\x1b[" ++ toString n ++ "m"

def styled : Styler := fun weight colour text =>
  control weight.number ++ (colour.map (control ·.number)).getD "" ++ text ++ control 0

end Text
end PhpDoc
