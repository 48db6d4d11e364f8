import Pddl.Decimal.Fixed
import Pddl.Decimal.Shortest
import Pddl.Text.DecimalDigit

/-!
# Numbers

A number is an integer or, when it is written with a fraction, a double.
-/

namespace Pddl

/-- The value of a numeric literal. -/
inductive Number
  | int (value : Int)
  | real (value : Float)

namespace Number

/-! ### Reading -/

/-- The parts of a number's text: its sign, its whole digits and, after a point, its fraction. -/
structure Lexeme where
  negative : Bool
  whole : List Char
  fraction : Option (List Char)
deriving DecidableEq, Repr

/-- Splits the text of a number into its parts. -/
def Lexeme.ofText (text : String) : Lexeme :=
  let chars := text.toList
  let negative := chars.head? = some '-'
  let unsigned := if negative then chars.drop 1 else chars
  { negative := negative
    whole := unsigned.takeWhile (· ≠ '.')
    fraction :=
      match unsigned.dropWhile (· ≠ '.') with
      | [] => none
      | _ :: fraction => some fraction }

/-- The most digits that the text of an integer may have. -/
def maxDigits : Nat := 4300

/-- The number of a lexeme: an integer without a fraction, the nearest double with one.  There is
none for an integer of more than `maxDigits` digits. -/
def ofLexeme? (lexeme : Lexeme) : Option Number :=
  match lexeme.fraction with
  | some fraction =>
    let magnitude :=
      Float.ofScientific (Text.decimalValue (lexeme.whole ++ fraction)) true fraction.length
    some (.real (if lexeme.negative then -magnitude else magnitude))
  | none =>
    if lexeme.whole.length ≤ maxDigits then
      let magnitude : Int := Text.decimalValue lexeme.whole
      some (.int (if lexeme.negative then -magnitude else magnitude))
    else none

/-- The number that a text spells. -/
def ofText? (text : String) : Option Number :=
  ofLexeme? (Lexeme.ofText text)

/-- The number as a double; none for an integer too large for a finite one. -/
def toFloat? : Number → Option Float
  | .real x => some x
  | .int n =>
    let x := Float.ofInt n
    if x.isInf then none else some x

/-! ### Writing -/

/-- The least power of ten of a first digit that is written without an exponent. -/
def leastPlainExponent : Int := -4

/-- The power of ten from which on a first digit is written with an exponent. -/
def plainExponentEnd : Int := 16

/-- Digits with an exponent: a point after the first digit if more follow, and an exponent of at
least two digits that always has a sign. -/
def writeScientific (digits : List Char) (exponent : Int) : String :=
  let mantissa := match digits with
    | [] => []
    | [d] => [d]
    | d :: rest => d :: '.' :: rest
  let sign := if exponent < 0 then "-" else "+"
  String.ofList mantissa ++ "e" ++ sign ++ Decimal.padLeft 2 exponent.natAbs

/-- Digits without an exponent; a whole number keeps one zero after the point. -/
def writePlain (digits : List Char) (exponent : Int) : String :=
  String.ofList <|
    if exponent < 0 then
      '0' :: '.' :: List.replicate (-exponent - 1).toNat '0' ++ digits
    else
      let n := exponent.toNat + 1
      let whole := digits.take n ++ List.replicate (n - digits.length) '0'
      let fraction := digits.drop n
      whole ++ '.' :: (if fraction.isEmpty then ['0'] else fraction)

/-- The fewest digits that read back as the double. -/
def writeReal (x : Float) : String :=
  match Decimal.Double.ofFloat x with
  | .nan => "nan"
  | .infinite negative => Decimal.signText negative ++ "inf"
  | .finite negative 0 _ => Decimal.signText negative ++ "0.0"
  | .finite negative mantissa exponent =>
    let s := Decimal.shortest mantissa exponent
    let digits := Nat.toDigits 10 s.digits
    let first := s.exponent + digits.length - 1
    Decimal.signText negative ++
      if leastPlainExponent ≤ first && first < plainExponentEnd then writePlain digits first
      else writeScientific digits first

/-- The text of a number. -/
def text : Number → String
  | .int n => toString n
  | .real x => writeReal x

end Number

end Pddl
