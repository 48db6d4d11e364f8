/-!
# Tables in the order of insertion

A table gives values to keys.  Its entries stay in the order in which their keys were first put in;
a later value for a key takes the place of the earlier one.
-/

namespace Pddl

/-- Keys with their values, in the order of insertion. -/
abbrev Table (α : Type) := List (String × α)

namespace Table

variable {α : Type}

/-- The keys in the order of insertion. -/
def keys (table : Table α) : List String :=
  table.map Prod.fst

/-- Gives a value to a key, at the end if the key is new. -/
def put (key : String) (value : α) : Table α → Table α
  | [] => [(key, value)]
  | entry :: rest => if entry.1 = key then (key, value) :: rest else entry :: put key value rest

/-- Gives a value to a key that has none. -/
def putNew (key : String) (value : α) (table : Table α) : Table α :=
  match table.lookup key with
  | some _ => table
  | none => put key value table

/-- The table of a list of entries, of which later ones win. -/
def ofList (entries : List (String × α)) : Table α :=
  entries.foldl (fun table entry => put entry.1 entry.2 table) []

end Table

end Pddl
