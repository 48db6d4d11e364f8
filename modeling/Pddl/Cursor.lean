import Pddl.Token.Scan

/-!
# Cursors

A cursor stands at a token of a scanned text.  It can move one token on, and look at the token
after the current one, which it then keeps in reserve.  The error that ends the scan is met by the
first step that needs a token beyond the last one; after that the text counts as ended.
-/

namespace Pddl

/-- A position among the tokens of a text: the current token, the next one if it has been looked
at, the tokens still to come, and the error still to come after them. -/
structure Cursor where
  current : Token
  reserve : Option Token
  rest : List Token
  failure : Option LexError
  endOffset : Nat
deriving DecidableEq, Repr

/-- Steps of a cursor, which can meet the error that ends the scan. -/
abbrev CursorM := EStateM LexError Cursor

namespace Cursor

/-- Is there no current token? -/
def atEnd (cursor : Cursor) : Bool :=
  cursor.current.kind = .endOfInput

/-- The tokens that the cursor has met but not consumed: the current one and the one in reserve,
where they are tokens of the text. -/
def met (cursor : Cursor) : List Token :=
  (cursor.current :: cursor.reserve.toList).filter (·.kind ≠ .endOfInput)

/-- The tokens that are not consumed yet, from the current one on. -/
def upcoming (cursor : Cursor) : List Token :=
  cursor.met ++ cursor.rest

/-- The number of tokens that are not consumed yet. -/
def unread (cursor : Cursor) : Nat :=
  cursor.met.length + cursor.rest.length

theorem length_upcoming (cursor : Cursor) : cursor.upcoming.length = cursor.unread := by
  simp [upcoming, unread]

/-- Takes the next token of the scan. -/
def pull : CursorM Token := fun cursor =>
  match cursor.rest, cursor.failure with
  | token :: rest, _ => .ok token { cursor with rest := rest }
  | [], some error => .error error { cursor with failure := none }
  | [], none => .ok (Token.atEnd cursor.endOffset) cursor

/-- Looks at the token after the current one. -/
def peek : CursorM Token := fun cursor =>
  match cursor.reserve with
  | some token => .ok token cursor
  | none =>
    match pull cursor with
    | .ok token cursor => .ok token { cursor with reserve := some token }
    | .error error cursor => .error error cursor

/-- Moves past the current token and returns it.  At the end of the input the cursor stays. -/
def advance : CursorM Token := fun cursor =>
  match cursor.reserve with
  | some next => .ok cursor.current { cursor with current := next, reserve := none }
  | none =>
    if cursor.atEnd then .ok cursor.current cursor
    else
      match pull cursor with
      | .ok next after => .ok cursor.current { after with current := next }
      | .error error after => .error error after

/-- A cursor at the first token of a text, which fails if the scan ends before any token. -/
def ofText (text : String) : Except LexError Cursor :=
  let scanned := scan text
  let endOffset := text.toList.length
  match scanned.tokens, scanned.failure with
  | token :: rest, failure => .ok ⟨token, none, rest, failure, endOffset⟩
  | [], some error => .error error
  | [], none => .ok ⟨Token.atEnd endOffset, none, [], none, endOffset⟩

end Cursor

end Pddl
