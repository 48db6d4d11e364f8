import Pddl.Data
import Pddl.Text.DecimalDigit

/-!
# Unquoted scalars

What a scalar without quotes in an option file stands for: nothing, a truth value, a number, a date,
or else its own text.
-/

namespace Pddl.Yaml

/-- The words for nothing. -/
def nullWords : List String := ["", "~", "null", "Null", "NULL"]

/-- The words for true. -/
def trueWords : List String :=
  ["yes", "Yes", "YES", "true", "True", "TRUE", "on", "On", "ON"]

/-- The words for false. -/
def falseWords : List String :=
  ["no", "No", "NO", "false", "False", "FALSE", "off", "Off", "OFF"]

/-! ### Integers -/

/-- The value of a digit in bases up to sixteen. -/
def digitIn? (base : Nat) (c : Char) : Option Nat :=
  let value :=
    if c.isDigit then c.toNat - '0'.toNat
    else if 'a' ≤ c && c ≤ 'f' then c.toNat - 'a'.toNat + 10
    else if 'A' ≤ c && c ≤ 'F' then c.toNat - 'A'.toNat + 10
    else base
  if value < base then some value else none

/-- The value of a row of digits, which may be grouped by underscores; there must be a digit. -/
def digitsIn? (base : Nat) (chars : List Char) : Option Nat :=
  let digits := chars.filter (· ≠ '_')
  if digits.isEmpty then none
  else digits.foldlM (fun value c => (digitIn? base c).map (base * value + ·)) 0

/-- The sign of a number, and what follows it. -/
def splitSign : List Char → Bool × List Char
  | '-' :: rest => (true, rest)
  | '+' :: rest => (false, rest)
  | chars => (false, chars)

/-- The places after the first of a number in base sixty, each of one or two digits below sixty. -/
def sixtieth? (chars : List Char) : Option Nat :=
  match chars with
  | [_] | [_, _] => do
    let value ← digitsIn? 10 chars
    if chars.all Char.isDigit && value < 60 then some value else none
  | _ => none

/-- Splits a row of characters at a separator. -/
def splitAt (separator : Char) : List Char → List (List Char)
  | [] => [[]]
  | c :: rest =>
    if c = separator then [] :: splitAt separator rest
    else
      match splitAt separator rest with
      | [] => [[c]]
      | part :: parts => (c :: part) :: parts

/-- A natural number: binary after `0b`, hexadecimal after `0x`, octal after `0`, decimal otherwise,
or in base sixty with colons between its places. -/
def natural? : List Char → Option Nat
  | ['0'] => some 0
  | '0' :: 'b' :: rest => digitsIn? 2 rest
  | '0' :: 'x' :: rest => digitsIn? 16 rest
  | '0' :: rest => digitsIn? 8 ('0' :: rest)
  | c :: rest =>
    if c.isDigit then
      match splitAt ':' (c :: rest) with
      | [digits] => digitsIn? 10 digits
      | first :: places => do
        let start ← digitsIn? 10 first
        places.foldlM (fun value place => (sixtieth? place).map (60 * value + ·)) start
      | [] => none
    else none
  | [] => none

/-- An integer with an optional sign. -/
def integer? (chars : List Char) : Option Int :=
  let (negative, rest) := splitSign chars
  (natural? rest).map fun value => if negative then -(value : Int) else value

/-! ### Real numbers -/

/-- The exponent of a real number, which always has a sign; zero if there is none. -/
def exponent? : List Char → Option Int
  | [] => some 0
  | mark :: sign :: digits =>
    if (mark = 'e' || mark = 'E') && (sign = '+' || sign = '-') && digits.all Char.isDigit then
      (digitsIn? 10 digits).map fun value => if sign = '-' then -(value : Int) else value
    else none
  | _ => none

/-- The double nearest to `digits * 10 ^ exponent`. -/
def scaled (digits : Nat) (exponent : Int) : Float :=
  if exponent < 0 then Float.ofScientific digits true exponent.natAbs
  else Float.ofScientific digits false exponent.toNat

/-- A real number without a sign, which always has a point. -/
def magnitude? (chars : List Char) : Option Float :=
  let isPart (c : Char) : Bool := c.isDigit || c = '_'
  let whole := chars.takeWhile isPart
  match chars.dropWhile isPart with
  | '.' :: rest => do
    let fraction := rest.takeWhile isPart
    let exponent ← exponent? (rest.dropWhile isPart)
    let shaped :=
      match whole, fraction with
      | c :: _, _ => c.isDigit
      | [], c :: _ => c.isDigit
      | [], [] => false
    if shaped then
      let places := (fraction.filter (· ≠ '_')).length
      let digits ← digitsIn? 10 (whole ++ fraction)
      some (scaled digits (exponent - places))
    else none
  | _ => none

/-- A real number with an optional sign, an infinity, or the value that is no number. -/
def real? (chars : List Char) : Option Float :=
  let (negative, rest) := splitSign chars
  let word := String.ofList rest
  let signed (x : Float) : Float := if negative then -x else x
  if word = ".inf" || word = ".Inf" || word = ".INF" then
    some (signed (1.0 / 0.0))
  else if [".nan", ".NaN", ".NAN"].contains (String.ofList chars) then
    some (0.0 / 0.0)
  else if rest.head? = some '.' && rest.length ≠ chars.length then
    none
  else
    (magnitude? rest).map signed

/-! ### Dates -/

/-- A date: four digits for the year, and one or two each for the month and the day.  A time may
follow only after a full date. -/
def isDate (chars : List Char) : Bool :=
  let date := chars.takeWhile fun c => c.isDigit || c = '-'
  let rest := chars.dropWhile fun c => c.isDigit || c = '-'
  match splitAt '-' date with
  | [year, month, day] =>
    year.length = 4 &&
      (if rest.isEmpty then month.length = 2 && day.length = 2
       else
        (month.length = 1 || month.length = 2) && (day.length = 1 || day.length = 2) &&
          rest.contains ':' && ['T', 't', ' ', '\t'].contains (rest.headD ' '))
  | _ => false

/-- The value of an unquoted scalar. -/
def plainScalar (text : String) : Data :=
  if nullWords.contains text then .null
  else if trueWords.contains text then .bool true
  else if falseWords.contains text then .bool false
  else
    match integer? text.toList with
    | some value => .int value
    | none =>
      match real? text.toList with
      | some value => .real value
      | none => if isDate text.toList then .date else .text text

end Pddl.Yaml
