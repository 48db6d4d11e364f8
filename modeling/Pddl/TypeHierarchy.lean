import Pddl.Failure
import Pddl.Table
import Pddl.Text.Order
import Pddl.Text.Quoted

/-!
# Type hierarchies

Every declared type has a parent; the root type has none.  Types are compared by their folded
names, their keys, and shown as they were first written.

A hierarchy can be made of any names, not only of those that a document can have.  How names are
folded is therefore a parameter (`Folding`): nothing is known of it but that it leaves the root as
it is.
-/

namespace Pddl

/-- A way to fold names.  Two types are the same if their names have the same fold. -/
class Folding where
  lower : String → String
  lower_root : lower rootType = rootType

/-- The names of a document are ASCII, where folding changes capitals only. -/
instance Folding.ascii : Folding where
  lower := fold
  lower_root := by decide

attribute [simp] Folding.lower_root

open Folding (lower)

@[simp] theorem Folding.ascii_lower (name : String) : lower name = fold name := rfl

variable [Folding]

/-- A hierarchy of types: the parent's key of each declared key, in the order of declaration, and
the spelling of each key that occurs. -/
structure TypeHierarchy where
  parents : Table String
  spellings : Table String
deriving DecidableEq, Repr

namespace TypeHierarchy

/-! ### Construction -/

/-- The hierarchy with given parents.  The root and all keys among the parents are spelled as in
`spellings`, and as they are if it does not list them. -/
def ofTables (parents spellings : Table String) : TypeHierarchy where
  parents := parents
  spellings :=
    let occurring := rootType :: (parents.map Prod.fst ++ parents.map Prod.snd)
    let plain := Table.ofList (occurring.map fun key => (key, key))
    plain.map fun entry => (entry.1, (spellings.lookup entry.1).getD entry.2)

/-- The hierarchy without declared types. -/
def empty : TypeHierarchy :=
  ofTables [] []

/-- The spelling of a key; a key that does not occur spells itself. -/
def spelling (hierarchy : TypeHierarchy) (key : String) : String :=
  (hierarchy.spellings.lookup key).getD key

/-- Declarations under way: the parents and the spellings so far. -/
structure Draft where
  parents : Table String
  spellings : Table String
deriving DecidableEq, Repr

/-- Nothing is declared, and the root is spelled. -/
def Draft.start : Draft :=
  ⟨[], [(rootType, rootType)]⟩

/-- Declares a type with a parent.  A type may be declared again with the same parent or with the
root, which changes nothing, and with a parent in place of the root; any other second parent is a
conflict. -/
def Draft.declare (draft : Draft) (type parent : String) : Except Defect Draft :=
  let typeKey := lower type
  let parentKey := lower parent
  if typeKey = rootType then
    if parentKey = rootType then .ok draft else .error .rootWithParent
  else
    let spellings := draft.spellings.putNew typeKey type
    let declared : Draft :=
      ⟨draft.parents.put typeKey parentKey, spellings.putNew parentKey parent⟩
    match draft.parents.lookup typeKey with
    | none => .ok declared
    | some existing =>
      if parentKey = rootType then
        .ok { draft with spellings := spellings }
      else if existing = parentKey || existing = rootType then
        .ok declared
      else
        .error (.conflictingParents type ((spellings.lookup existing).getD existing) parent)

/-- Declares a typed name, whose type is its parent.  A type cannot have alternative parents. -/
def Draft.add (draft : Draft) (declaration : TypedName) : Except Defect Draft :=
  match declaration.type with
  | .named parent => draft.declare declaration.name parent
  | .either _ => .error (.eitherParent declaration.name declaration.type)

/-- The hierarchy of a list of declarations, whether or not its parents are declared. -/
def ofDeclarations (declarations : List TypedName) : Except Defect TypeHierarchy := do
  let draft ← declarations.foldlM Draft.add Draft.start
  return ofTables draft.parents draft.spellings

/-! ### Validity -/

/-- Follows the parents of the last type of a chain, at most `fuel` steps, up to the root.  The
chain is returned, with the repeated type at its end, if it meets one of its own types again. -/
def cycleFrom (hierarchy : TypeHierarchy) : Nat → List String → String → Option (List String)
  | 0, _, _ => none
  | fuel + 1, chain, current =>
    if current = rootType then none
    else
      match hierarchy.parents.lookup current with
      | none => none
      | some parent =>
        if parent ∈ chain then some (chain ++ [parent])
        else cycleFrom hierarchy fuel (chain ++ [parent]) parent

/-- The first declared type whose parent is neither the root nor declared. -/
def orphan? (hierarchy : TypeHierarchy) : Option (String × String) :=
  hierarchy.parents.find? fun entry =>
    entry.2 ≠ rootType && (hierarchy.parents.lookup entry.2).isNone

/-- The first cycle that the declared types lead into. -/
def cycle? (hierarchy : TypeHierarchy) : Option (List String) :=
  hierarchy.parents.findSome? fun entry =>
    hierarchy.cycleFrom (hierarchy.parents.length + 1) [entry.1] entry.1

/-- Checks that every parent is declared and that no type is its own ancestor. -/
def validate (hierarchy : TypeHierarchy) : Except Defect Unit :=
  match hierarchy.orphan? with
  | some (type, parent) =>
    .error (.undeclaredParent (hierarchy.spelling type) (hierarchy.spelling parent))
  | none =>
    match hierarchy.cycle? with
    | some chain => .error (.cycle (chain.map hierarchy.spelling))
    | none => .ok ()

/-- The valid hierarchy of a list of declarations. -/
def ofDeclarationsValid (declarations : List TypedName) : Except Defect TypeHierarchy := do
  let hierarchy ← ofDeclarations declarations
  hierarchy.validate
  return hierarchy

/-! ### Queries -/

/-- Is the type the root, declared, or the parent of a declared type? -/
def contains (hierarchy : TypeHierarchy) (type : String) : Bool :=
  (hierarchy.spellings.lookup (lower type)).isSome

/-- The declared types in the order of declaration. -/
def types (hierarchy : TypeHierarchy) : List String :=
  hierarchy.parents.map fun entry => hierarchy.spelling entry.1

/-- The number of declared types. -/
def size (hierarchy : TypeHierarchy) : Nat :=
  hierarchy.parents.length

/-- The declared types with their parents.  Types with the same spelling share one entry. -/
def pairs (hierarchy : TypeHierarchy) : Table String :=
  Table.ofList <| hierarchy.parents.map fun entry =>
    (hierarchy.spelling entry.1, hierarchy.spelling entry.2)

/-- Do two hierarchies give the same parents to the same types, in any order? -/
def same (a b : TypeHierarchy) : Bool :=
  a.pairs.length = b.pairs.length &&
    a.pairs.all fun entry => b.pairs.lookup entry.1 = some entry.2

/-- The hierarchy as a listing of its pairs. -/
def text (hierarchy : TypeHierarchy) : String :=
  "TypeHierarchy(" ++ Text.quotedPairs hierarchy.pairs ++ ")"

/-- A type that a query asks for is not declared. -/
structure UnknownType where
  type : String
deriving DecidableEq, Repr

/-- The unknown type in words. -/
def UnknownType.message (error : UnknownType) : String :=
  "Unknown type: '" ++ error.type ++ "'."

/-- The parent of a type; none for the root. -/
def parentOf (hierarchy : TypeHierarchy) (type : String) : Except UnknownType (Option String) :=
  if lower type = rootType then
    .ok none
  else
    match hierarchy.parents.lookup (lower type) with
    | some parent => .ok (some (hierarchy.spelling parent))
    | none => .error ⟨type⟩

/-- The types whose parent the type is, in the order of code points and without repetitions. -/
def childrenOf (hierarchy : TypeHierarchy) (type : String) : List String :=
  let entries := hierarchy.parents.filter fun entry => entry.2 = lower type
  Text.sorted (Text.union [] (entries.map fun entry => hierarchy.spelling entry.1))

/-- At most `fuel` supertypes of a type, the nearest first. -/
def ancestorsFuel (hierarchy : TypeHierarchy) : Nat → String → Except UnknownType (List String)
  | 0, _ => .ok []
  | fuel + 1, type => do
    match ← hierarchy.parentOf type with
    | none => return []
    | some parent => return parent :: (← ancestorsFuel hierarchy fuel parent)

/-- The supertypes of a type, the nearest first and the root last.  There are at most as many as
declared types, unless the hierarchy has a cycle. -/
def ancestors (hierarchy : TypeHierarchy) (type : String) : Except UnknownType (List String) :=
  hierarchy.ancestorsFuel (hierarchy.size + 1) type

/-- Is the type the other one or below it? -/
def isSubtype (hierarchy : TypeHierarchy) (type other : String) : Except UnknownType Bool :=
  if lower type = lower other then
    .ok true
  else do
    return ((← hierarchy.ancestors type).map lower).contains (lower other)

end TypeHierarchy

end Pddl
