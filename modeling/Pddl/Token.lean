import Pddl.Text.Fold

/-!
# Tokens

A token is a lexeme of planning text with its kind and its place in the text.
-/

namespace Pddl

/-- The kinds of tokens. -/
inductive Token.Kind
  | name
  | var
  | keyword
  | flag
  | number
  | minus
  | operator
  | colon
  | openParen
  | closeParen
  | openBracket
  | closeBracket
  | endOfInput
deriving DecidableEq, Repr

/-- How messages speak of a token of the kind. -/
def Token.Kind.describe : Token.Kind → String
  | .name => "a name"
  | .var => "a variable"
  | .keyword => "a keyword"
  | .flag => "a requirement flag"
  | .number => "a number"
  | .minus => "'-'"
  | .operator => "an operator"
  | .colon => "':'"
  | .openParen => "'('"
  | .closeParen => "')'"
  | .openBracket => "'['"
  | .closeBracket => "']'"
  | .endOfInput => "end of input"

/-- A lexeme with its place: the line counted from one, the column from zero, and the number of
characters before it. -/
structure Token where
  kind : Token.Kind
  text : String
  line : Int
  column : Int
  offset : Nat
deriving DecidableEq, Repr

namespace Token

/-- The folded text, by which names and keywords are compared. -/
def key (token : Token) : String :=
  fold token.text

/-- The token that stands after the last lexeme of a text with `offset` characters.  It has no
line and no column. -/
def atEnd (offset : Nat) : Token where
  kind := .endOfInput
  text := ""
  line := -1
  column := -1
  offset := offset

end Token

end Pddl
