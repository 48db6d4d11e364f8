import Pddl.Text.Fold

/-!
# Typed names

Variables, constants and objects are written together with their type, which is a single name or
one of several alternatives.
-/

namespace Pddl

/-- The root of every type hierarchy, and the type of what is declared without one. -/
def rootType : String := "object"

/-- The type of the values of numeric functions. -/
def numberType : String := "number"

/-- Is the term a variable? -/
def isVariable (term : String) : Bool :=
  term.toList.head? = some '?'

/-- The type of an entity: a type name, or the alternatives of an `either` type. -/
inductive TypeSpec
  | named (name : String)
  | either (options : List String)
deriving DecidableEq, Repr

namespace TypeSpec

/-- The type names that an entity of the type may have. -/
def options : TypeSpec → List String
  | .named name => [name]
  | .either options => options

/-- The type as it is written. -/
def text : TypeSpec → String
  | .named name => name
  | .either options => "(either " ++ String.intercalate " " options ++ ")"

end TypeSpec

/-- A name with its type. -/
structure TypedName where
  name : String
  type : TypeSpec
deriving DecidableEq, Repr

namespace TypedName

/-- A name that is declared without a type. -/
def untyped (name : String) : TypedName :=
  ⟨name, .named rootType⟩

/-- The typed name as it is written. -/
def text (typed : TypedName) : String :=
  typed.name ++ " - " ++ typed.type.text

/-- Several typed names, one after the other with commas between them. -/
def listText (typed : List TypedName) : String :=
  String.intercalate ", " (typed.map text)

end TypedName

end Pddl
