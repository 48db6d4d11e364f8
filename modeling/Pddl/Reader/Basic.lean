import Pddl.Cursor
import Pddl.Failure
import Pddl.Notice
import Pddl.Settings

/-!
# Readers

A reader consumes tokens and yields a value or a failure.  Its state survives a failure: the tokens
consumed, the notices left and the flags declared before it stay as they are.
-/

namespace Pddl

/-- What does not change while a document is read: the settings, whether features need a declared
flag (they do in domains), and how many expressions may be open at once if that is limited. -/
structure Reader.Context where
  settings : Settings
  governs : Bool
  capacity : Option Nat

/-- What changes while a document is read. -/
structure Reader.State where
  cursor : Cursor
  depth : Nat
  requirements : List String
  log : List Notice

/-- Readers of a value. -/
abbrev ReadM := ReaderT Reader.Context (EStateM Failure Reader.State)

namespace Reader

/-- The state before anything is read. -/
def State.ofCursor (cursor : Cursor) (requirements : List String) : State where
  cursor := cursor
  depth := 0
  requirements := requirements
  log := []

/-! ### Tokens -/

/-- Runs a step of the cursor. -/
def onCursor {α : Type} (step : CursorM α) : ReadM α := fun _ state =>
  match step state.cursor with
  | .ok value cursor => .ok value { state with cursor := cursor }
  | .error error cursor => .error (.lexical error) { state with cursor := cursor }

/-- The current token. -/
def current : ReadM Token := do
  return (← get).cursor.current

/-- Is all input consumed? -/
def atEnd : ReadM Bool := do
  return (← get).cursor.atEnd

/-- The token after the current one. -/
def peek : ReadM Token :=
  onCursor Cursor.peek

/-- Consumes the current token, whatever it is. -/
def advance : ReadM Token :=
  onCursor Cursor.advance

/-- The kind of the current token. -/
def currentKind : ReadM Token.Kind := do
  return (← current).kind

/-! ### Failures and notices -/

/-- Fails at the current token. -/
def failHere {α : Type} (expected : String) (cause : Cause) : ReadM α := do
  throw (.grammar (.atCurrent (← current) expected cause))

/-- Fails at a token that may be consumed already. -/
def failAt {α : Type} (token : Token) (expected : String) (cause : Cause) : ReadM α :=
  throw (.grammar (.atToken token expected cause))

/-- Leaves a notice. -/
def note (notice : Notice) : ReadM Unit :=
  modify fun state => { state with log := state.log ++ [notice] }

/-- Reports a breach at a token: a failure under strict settings, a warning otherwise. -/
def report (token : Token) (breach : Breach) : ReadM Unit := do
  if (← read).settings.strictRequirements then
    failAt token breach.expected (.breach breach)
  else
    note (.warning token.line breach)

/-- Reports a feature that is used at a token while none of its flags is declared. -/
def require (token : Token) (feature : Feature) : ReadM Unit := do
  let declared := (← get).requirements
  if (← read).governs && !feature.flags.any (declared.contains ·) then
    report token (.undeclaredFeature feature)

/-- May arithmetic be nested in numeric terms? -/
def arithmeticAllowed : ReadM Bool := do
  let declared := (← get).requirements
  return !(← read).governs || declared.contains ":numeric-fluents"

/-! ### Expected tokens -/

/-- Consumes a token of the given kind. -/
def expect (kind : Token.Kind) (expected : String) : ReadM Token := do
  if (← currentKind) = kind then advance else failHere expected .mismatch

/-- Consumes a token of the given kind and, up to case, the given text. -/
def expectText (kind : Token.Kind) (text expected : String) : ReadM Token := do
  let token ← current
  if token.kind = kind && token.key = fold text then advance else failHere expected .mismatch

/-- Consumes an opening parenthesis. -/
def openParen : ReadM Token :=
  expect .openParen Token.Kind.openParen.describe

/-- Consumes a closing parenthesis. -/
def closeParen : ReadM Token :=
  expect .closeParen Token.Kind.closeParen.describe

/-- Is the token a keyword, known as a flag or not? -/
def isKeyword (token : Token) : Bool :=
  token.kind = .keyword || token.kind = .flag

/-- Is the token the given keyword, up to case? -/
def isKeywordText (text : String) (token : Token) : Bool :=
  isKeyword token && token.key = fold text

/-- Consumes the given keyword. -/
def keyword (text : String) : ReadM Token := do
  if isKeywordText text (← current) then advance else failHere s!"'{text}'" .mismatch

/-- Consumes the closing parenthesis of a form that `opener` names; `reason` says why the form has
to end here. -/
def closeForm (opener : Token) (reason : String) : ReadM Unit := do
  if (← currentKind) = .closeParen then
    let _ ← advance
  else
    failHere Token.Kind.closeParen.describe (.unclosed opener.text reason)

/-! ### Repetition and nesting -/

/-- One more than the number of unread tokens.  A loop that consumes a token in each round ends
within that many rounds. -/
def rounds : ReadM Nat := do
  return (← get).cursor.unread + 1

/-- Reads items for as long as the current token passes a test, at most `fuel` of them. -/
def whileFuel {α : Type} (test : Token → Bool) (item : ReadM α) : Nat → ReadM (List α)
  | 0 => return []
  | fuel + 1 => do
    if test (← current) then
      let first ← item
      let others ← whileFuel test item fuel
      return first :: others
    else
      return []

/-- Reads items, each of which consumes a token, for as long as the current token passes a test. -/
def readWhile {α : Type} (test : Token → Bool) (item : ReadM α) : ReadM (List α) := do
  whileFuel test item (← rounds)

/-- The texts of the tokens up to the first that fails a test, which are consumed. -/
def textsWhile (test : Token → Bool) : ReadM (List String) :=
  readWhile test do return (← advance).text

/-- Does the token have the given kind? -/
def hasKind (kind : Token.Kind) (token : Token) : Bool :=
  token.kind = kind

/-- Fails if expressions are nested more deeply than the settings allow. -/
def checkDepth : ReadM Unit := do
  match (← read).settings.maxNestingDepth with
  | none => return ()
  | some limit =>
    if limit < (← get).depth then failHere "a shallower expression" (.nestedBeyond limit)

/-- Reads one level deeper.  The depth is back where it was afterwards, also after a failure. -/
def nested {α : Type} (body : ReadM α) : ReadM α := fun context state =>
  let leave (state : State) : State := { state with depth := state.depth - 1 }
  match (do checkDepth; body) context { state with depth := state.depth + 1 } with
  | .ok value state => .ok value (leave state)
  | .error failure state => .error failure (leave state)

/-- Fails because more expressions are open than can be kept open. -/
def failTooDeep {α : Type} : ReadM α :=
  failHere "a shallower expression" .tooDeep

/-- How many expressions may be open at once.  Each open expression has consumed a token, so
without a limit the number of unread tokens is enough. -/
def budget : ReadM Nat := do
  match (← read).capacity with
  | some capacity => return capacity
  | none => rounds

end Reader

end Pddl
