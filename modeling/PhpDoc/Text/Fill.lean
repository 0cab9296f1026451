/-!
Templates of messages: `%s` stands for the next argument and `%%` for a percent sign.
-/
namespace PhpDoc.Text

def fillList (args : List String) : List Char → List Char
  | [] => []
  | '%' :: 's' :: cs =>
    match args with
    | a :: rest => a.toList ++ fillList rest cs
    | [] => '%' :: 's' :: fillList [] cs
  | '%' :: '%' :: cs => '%' :: fillList args cs
  | c :: cs => c :: fillList args cs

/-- The message of a template. Without arguments the template is the message. -/
def fill (template : String) (args : List String) : String :=
  if args.isEmpty then template else String.ofList (fillList args template.toList)

end PhpDoc.Text
