/-!
# Plain data

The values that option files hold.
-/

namespace Pddl

/-- A value of an option file.  Dates have no use as options and are kept as such only. -/
inductive Data
  | null
  | bool (value : Bool)
  | int (value : Int)
  | real (value : Float)
  | text (value : String)
  | date
  | list (items : List Data)
  | map (entries : List (Data × Data))

namespace Data

/-- Does the value count as nothing: null, false, zero, or empty? -/
def isVacant : Data → Bool
  | .null => true
  | .bool value => !value
  | .int value => value = 0
  | .real value => value == 0.0
  | .text value => value = ""
  | .date => false
  | .list items => items.isEmpty
  | .map entries => entries.isEmpty

/-- Is the value the given text? -/
def isText (text : String) : Data → Bool
  | .text value => value = text
  | _ => false

/-- Are two values the same key of a map?  Truth values are the keys one and zero. -/
def sameKey : Data → Data → Bool
  | .null, .null => true
  | .text a, .text b => a = b
  | .bool a, .bool b => a = b
  | .int a, .int b => a = b
  | .bool a, .int b | .int b, .bool a => b = if a then 1 else 0
  | .real a, .real b => a == b
  | _, _ => false

/-- Gives a value to a key of a map, at the end if the key is new. -/
def putEntry (key value : Data) : List (Data × Data) → List (Data × Data)
  | [] => [(key, value)]
  | entry :: rest =>
    if sameKey entry.1 key then (entry.1, value) :: rest else entry :: putEntry key value rest

/-- The map of a list of entries, of which later ones win. -/
def ofEntries (entries : List (Data × Data)) : Data :=
  .map (entries.foldl (fun table entry => putEntry entry.1 entry.2 table) [])

end Data

end Pddl
