import Pddl.Text.Printable

/-!
# Quoted text

A text in messages and listings stands between quotes: single ones, or double ones when it has a
single quote and no double quote.  The quote itself, the backslash and every character that cannot
be shown are written as escapes.
-/

namespace Pddl.Text

/-- A number with at least `width` hexadecimal digits. -/
def hex (width n : Nat) : List Char :=
  let digits := Nat.toDigits 16 n
  List.replicate (width - digits.length) '0' ++ digits

/-- The quote for a text. -/
def quoteFor (chars : List Char) : Char :=
  if chars.contains '\'' && !chars.contains '"' then '"' else '\''

/-- A character inside quotes. -/
def escape (quote c : Char) : List Char :=
  if c = quote || c = '\\' then ['\\', c]
  else if c = '\n' then ['\\', 'n']
  else if c = '\r' then ['\\', 'r']
  else if c = '\t' then ['\\', 't']
  else if isPrintable c then [c]
  else if c.toNat < 0x100 then '\\' :: 'x' :: hex 2 c.toNat
  else if c.toNat < 0x10000 then '\\' :: 'u' :: hex 4 c.toNat
  else '\\' :: 'U' :: hex 8 c.toNat

/-- A text between quotes. -/
def quoted (text : String) : String :=
  let quote := quoteFor text.toList
  String.ofList (quote :: text.toList.flatMap (escape quote) ++ [quote])

/-- Quoted texts between square brackets. -/
def quotedList (texts : List String) : String :=
  "[" ++ String.intercalate ", " (texts.map quoted) ++ "]"

/-- Pairs of quoted texts between braces. -/
def quotedPairs (pairs : List (String × String)) : String :=
  let entries := pairs.map fun pair => quoted pair.1 ++ ": " ++ quoted pair.2
  "\x7b" ++ String.intercalate ", " entries ++ "\x7d"

end Pddl.Text
