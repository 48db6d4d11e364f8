import Pddl.Reader.Basic
import Pddl.Requirement

/-!
# Readers of names, numbers, types and flags

The parts that domains, problems and plans share below the level of expressions.
-/

namespace Pddl.Reader

/-- Reads a name. -/
def name (expected : String) : ReadM String := do
  return (← expect .name expected).text

/-- Reads a number, an integer unless it has a fraction. -/
def number : ReadM Number := do
  let token ← expect .number Token.Kind.number.describe
  match Number.ofText? token.text with
  | some value => return value
  | none => throw .integerTooLong

/-! ### Typed lists -/

/-- Reads a type: a name or, where it is allowed, `(either t₁ t₂ …)`. -/
def typeSpec (allowEither : Bool) : ReadM TypeSpec := do
  let kind ← currentKind
  if kind = .name then
    return .named (← advance).text
  else if allowEither && kind = .openParen then
    let _ ← openParen
    let _ ← expectText .name "either" "'either'"
    let first ← name "a type name"
    let others ← textsWhile (hasKind .name)
    let _ ← expect .closeParen "a type name or ')'"
    return .either (first :: others)
  else
    failHere "a type name" .mismatch

/-- Does the token belong to the names of a typed list of tokens of the given kind? -/
def isListed (kind : Token.Kind) (token : Token) : Bool :=
  token.kind = kind && token.kind ≠ .closeParen && token.kind ≠ .endOfInput

/-- Reads at most `fuel` groups `n₁ … nₖ - type` and the untyped names after them. -/
def typedGroups (kind : Token.Kind) (allowEither : Bool) : Nat → ReadM (List TypedName)
  | 0 => return []
  | fuel + 1 => do
    let names ← textsWhile (isListed kind)
    match ← currentKind with
    | .closeParen | .endOfInput => return names.map TypedName.untyped
    | .minus =>
      if names.isEmpty then
        failHere kind.describe (.strayMinus "a typed list")
      else
        let minus ← advance
        require minus Feature.typedLists
        let type ← typeSpec allowEither
        let others ← typedGroups kind allowEither fuel
        return names.map (⟨·, type⟩) ++ others
    | _ => failHere (kind.describe ++ ", '-', or ')'") .mismatch

/-- Reads a typed list of tokens of the given kind, up to a closing parenthesis or the end of the
input, which it leaves.  Names before a `-` have the type after it; names after the last type have
the root type. -/
def typedList (kind : Token.Kind) (allowEither : Bool) : ReadM (List TypedName) := do
  typedGroups kind allowEither (← rounds)

/-! ### Requirements -/

/-- Reads a flag and reports an unknown one. -/
def requirementFlag : ReadM String := do
  let flag ← advance
  if flag.kind = .keyword then
    report flag (.unknownFlag flag.text)
  return flag.key

/-- Reads a section of requirements from its keyword through its closing parenthesis, declares its
flags with everything they imply, and returns the flags as they are listed, without repetitions. -/
def requirements : ReadM (List String) := do
  let _ ← keyword ":requirements"
  let flags ← readWhile isKeyword requirementFlag
  let _ ← expect .closeParen "a requirement flag or ')'"
  let listed := Text.union [] flags
  modify fun state =>
    { state with requirements := Text.union state.requirements (Requirement.expand listed) }
  note (.requirementsRead listed)
  return listed

/-! ### Before and after the document -/

/-- Reads the start of a document through the closing parenthesis after its name. -/
def header (kind expected : String) : ReadM String := do
  let _ ← openParen
  let _ ← expectText .name "define" "'define'"
  let _ ← openParen
  let _ ← expectText .name kind s!"'{kind}'"
  let name ← name expected
  let _ ← closeParen
  return name

/-- Skips the rest of the input, at most `fuel` tokens of it, with `opened` parentheses open.  A
closing parenthesis without an opening one is a failure. -/
def skipRest : Nat → Nat → ReadM Unit
  | 0, _ => return ()
  | fuel + 1, opened => do
    match ← currentKind, opened with
    | .endOfInput, _ => return ()
    | .closeParen, 0 => failHere "end of input" .unmatchedClose
    | .closeParen, opened + 1 =>
      let _ ← advance
      skipRest fuel opened
    | .openParen, opened =>
      let _ ← advance
      skipRest fuel (opened + 1)
    | _, opened =>
      let _ ← advance
      skipRest fuel opened

/-- Reads what follows the closing parenthesis of a document.  It is skipped unless the settings
ask for the end of the input. -/
def endOfDocument : ReadM Unit := do
  let token ← current
  if token.kind = .endOfInput then
    return ()
  else if (← read).settings.requireEndOfInput && token.kind ≠ .closeParen then
    failHere "end of input" .mismatch
  else
    note (.trailingInput token.line)
    skipRest (← rounds) 0

end Pddl.Reader
