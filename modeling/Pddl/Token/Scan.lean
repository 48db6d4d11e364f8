import Pddl.Requirement
import Pddl.Text.DecimalDigit
import Pddl.Token

/-!
# Scanning

`scan` splits a text into tokens.  Blanks, newlines and comments separate tokens and are dropped.
At the first character that starts no lexeme the scan ends with a `LexError`; the tokens before it
are kept.
-/

namespace Pddl

/-- A place in a text. -/
structure Place where
  line : Nat
  column : Nat
  offset : Nat
deriving DecidableEq, Repr

namespace Place

/-- The first character's place. -/
def start : Place := ⟨1, 0, 0⟩

/-- The place `n` characters further on the same line. -/
def right (place : Place) (n : Nat) : Place :=
  { place with column := place.column + n, offset := place.offset + n }

/-- The place after a newline character. -/
def nextLine (place : Place) : Place :=
  ⟨place.line + 1, 0, place.offset + 1⟩

end Place

/-- A character that starts no lexeme, and its place. -/
structure LexError where
  char : Char
  place : Place
deriving DecidableEq, Repr

/-- A lone question mark is a variable without a name. -/
def LexError.message (error : LexError) : String :=
  let reason := if error.char = '?' then "a variable needs a name after '?'" else "unknown"
  s!"Cannot tokenize '{error.char}' ({reason})."

namespace Token

/-! ### Lexemes -/

/-- The characters that are dropped between lexemes on one line. -/
def isBlank (c : Char) : Bool :=
  c = ' ' || c = '\t' || c = '\r' || c = '\x0c'

/-- The characters that may follow the first letter of a name. -/
def isNameChar (c : Char) : Bool :=
  c.isAlphanum || c = '-' || c = '_'

/-- The length of the name that starts a text, if one does. -/
def nameLength? : List Char → Option Nat
  | [] => none
  | c :: rest => if c.isAlpha then some (1 + (rest.takeWhile isNameChar).length) else none

/-- The length of the fraction (a point and its digits) that starts a text; zero if none does. -/
def fractionLength : List Char → Nat
  | '.' :: rest =>
    match (rest.takeWhile Text.isDecimalDigit).length with
    | 0 => 0
    | n + 1 => n + 2
  | _ => 0

/-- The length of what may follow the first digit of a number: more digits, and a fraction. -/
def numberTailLength (rest : List Char) : Nat :=
  (rest.takeWhile Text.isDecimalDigit).length +
    fractionLength (rest.dropWhile Text.isDecimalDigit)

/-- The lexeme that starts with `c` in a text going on with `rest`: its kind, and how many
characters of `rest` belong to it.  It is the longest lexeme that starts there. -/
def lexeme? (c : Char) (rest : List Char) : Option (Kind × Nat) :=
  if c.isAlpha then
    some (.name, (rest.takeWhile isNameChar).length)
  else if c = '?' then
    (nameLength? rest).map (.var, ·)
  else if c = ':' then
    some <| match nameLength? rest with
      | some n => (.keyword, n)
      | none => (.colon, 0)
  else if Text.isDecimalDigit c then
    some (.number, numberTailLength rest)
  else if c = '-' then
    some <| match rest with
      | d :: more =>
        if Text.isDecimalDigit d then (.number, 1 + numberTailLength more) else (.minus, 0)
      | [] => (.minus, 0)
  else if c = '<' || c = '>' then
    some (.operator, if rest.head? = some '=' then 1 else 0)
  else if c = '=' || c = '+' || c = '*' || c = '/' then
    some (.operator, 0)
  else if c = '(' then some (.openParen, 0)
  else if c = ')' then some (.closeParen, 0)
  else if c = '[' then some (.openBracket, 0)
  else if c = ']' then some (.closeBracket, 0)
  else none

/-- The token of a lexeme.  A keyword that is a recognised flag is a flag. -/
def ofLexeme (kind : Kind) (chars : List Char) (place : Place) : Token :=
  let text := String.ofList chars
  { kind := if kind = .keyword && Requirement.isKnown text then .flag else kind
    text := text
    line := place.line
    column := place.column
    offset := place.offset }

end Token

/-! ### The scan -/

/-- The tokens of a text and the error, if any, that ends them. -/
structure Scan where
  tokens : List Token
  failure : Option LexError
deriving DecidableEq, Repr

namespace Scan

/-- Adds a token in front. -/
def cons (token : Token) (scan : Scan) : Scan :=
  { scan with tokens := token :: scan.tokens }

/-- Scans the characters of a text that start at `place`. -/
def run (place : Place) : List Char → Scan
  | [] => ⟨[], none⟩
  | c :: rest =>
    if c = '\n' then
      run place.nextLine rest
    else if Token.isBlank c then
      run (place.right 1) rest
    else if c = ';' then
      run (place.right (1 + (rest.takeWhile (· ≠ '\n')).length)) (rest.dropWhile (· ≠ '\n'))
    else
      match Token.lexeme? c rest with
      | none => ⟨[], some ⟨c, place⟩⟩
      | some (kind, n) =>
        (run (place.right (1 + n)) (rest.drop n)).cons
          (Token.ofLexeme kind (c :: rest.take n) place)
termination_by chars => chars.length
decreasing_by
  · simp
  · simp
  · have := (List.dropWhile_suffix (p := (· ≠ '\n')) (l := rest)).length_le
    simp only [List.length_cons]
    omega
  · simp only [List.length_drop, List.length_cons]
    omega

end Scan

/-- The tokens of a text, from its first character on. -/
def scan (text : String) : Scan :=
  Scan.run Place.start text.toList

end Pddl
