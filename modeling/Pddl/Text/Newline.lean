/-!
# Line ends

Files may end their lines with a carriage return, a newline or both; after reading, every line ends
with a newline.
-/

namespace Pddl.Text

/-- Makes every line end a newline. -/
def newlinesIn : List Char → List Char
  | [] => []
  | '\r' :: '\n' :: rest => '\n' :: newlinesIn rest
  | '\r' :: rest => '\n' :: newlinesIn rest
  | c :: rest => c :: newlinesIn rest

/-- A text in which every line ends with a newline. -/
def withNewlines (text : String) : String :=
  String.ofList (newlinesIn text.toList)

end Pddl.Text
