import Pddl.Settings.Options
import Pddl.Text.Order
import Pddl.Text.Quoted
import Pddl.Yaml.Document

/-!
# Option files

Settings can be loaded from a file, which may be missing, unreadable, or wrong.
-/

namespace Pddl

/-- Why data cannot be loaded from a file. -/
inductive LoadFailure
  | missingFile
  | unreadable
  | missingKeys (keys : List String)
  /-- The file holds a value in which no keys can be looked for. -/
  | noKeys
deriving DecidableEq, Repr

/-- The failure to load a file with the given path, in words. -/
def LoadFailure.message (path : String) : LoadFailure → String
  | .missingFile => s!"Cannot load data from nonexistent YAML file: {path}"
  | .unreadable => s!"Failed to load from YAML file: {path}"
  | .missingKeys keys =>
    "Required keys " ++ Text.quotedList keys ++ s!" were missing in data loaded from {path}"
  | .noKeys => s!"The data loaded from {path} has no keys"

namespace Data

/-- The value of a file's content, which is absent if there is no file. -/
def load : Option String → Except LoadFailure Data
  | none => .error .missingFile
  | some content =>
    match Yaml.read? content with
    | some value => .ok value
    | none => .error .unreadable

/-- Does one text occur in another? -/
def occursIn (part : List Char) : List Char → Bool
  | [] => part.isEmpty
  | c :: rest => part.isPrefixOf (c :: rest) || occursIn part rest

/-- Does a value have a key?  Maps have keys, lists have their texts, and a text has all its parts;
a vacant value has none. -/
def hasKey (value : Data) (key : String) : Except LoadFailure Bool :=
  if value.isVacant then .ok false
  else
    match value with
    | .map entries => .ok (entries.any fun entry => entry.1.isText key)
    | .list items => .ok (items.any (isText key))
    | .text whole => .ok (occursIn key.toList whole.toList)
    | _ => .error .noKeys

/-- The value of a file's content if it has all the given keys. -/
def loadWithKeys (content : Option String) (keys : List String) : Except LoadFailure Data := do
  let value ← load content
  let missing ← keys.filterM fun key => do return !(← value.hasKey key)
  if missing.isEmpty then return value
  else throw (.missingKeys (Text.sorted (Text.union [] missing)))

end Data

/-- Why settings cannot be loaded. -/
inductive SettingsFailure
  | file (failure : LoadFailure)
  | options (problems : List OptionProblem)
deriving DecidableEq, Repr

/-- The settings of a file's content, which is absent if there is no file. -/
def Settings.load (content : Option String) : Except SettingsFailure Settings :=
  match Data.load content with
  | .error failure => .error (.file failure)
  | .ok value =>
    match Settings.ofData value with
    | .ok settings => .ok settings
    | .error problems => .error (.options problems)

end Pddl
