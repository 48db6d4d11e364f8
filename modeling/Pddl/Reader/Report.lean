import Pddl.Reader.Basic

/-!
# Reports

Reading a whole text yields a document or a failure, and in both cases the notices left on the way.
-/

namespace Pddl

/-- The outcome of reading a text. -/
structure Report (α : Type) where
  result : Except Failure α
  log : List Notice

namespace Reader

/-- How many expressions of a document can be open at once, unless the caller leaves more or less
room. -/
def documentCapacity : Nat := 960

/-- The context in which a whole document is read, with room for some open expressions. -/
def Context.document (settings : Settings) (governs : Bool) (capacity : Nat) : Context :=
  ⟨settings, governs, some capacity⟩

/-- The context of a reader without a limit on open expressions. -/
def Context.unlimited (settings : Settings) (governs : Bool) : Context :=
  ⟨settings, governs, none⟩

/-- Reads a text from its first token on. -/
def run {α : Type} (reader : ReadM α) (context : Context) (text : String) : Report α :=
  match Cursor.ofText text with
  | .error error => ⟨.error (.lexical error), []⟩
  | .ok cursor =>
    match reader context (State.ofCursor cursor []) with
    | .ok value state => ⟨.ok value, state.log⟩
    | .error failure state => ⟨.error failure, state.log⟩

end Reader

end Pddl
