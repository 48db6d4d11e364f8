import Pddl.Decimal.Binary

/-!
# Shortest decimals

`shortest` finds, for a positive double, the decimal with the fewest digits that reads back as that
double; of several with the same number of digits it takes the nearest one.
-/

namespace Pddl.Decimal

/-- How many decimal digits a natural number has; one for zero. -/
def digitCount (n : Nat) : Nat :=
  (Nat.toDigits 10 n).length

/-- The decimal `digits * 10 ^ exponent`. -/
structure Scientific where
  digits : Nat
  exponent : Int
deriving DecidableEq, Repr

/-- Moves the zeros at the end of the digits into the exponent, at most `fuel` of them. -/
def Scientific.trim : Nat → Scientific → Scientific
  | 0, s => s
  | fuel + 1, s =>
    if s.digits ≠ 0 && s.digits % 10 = 0 then
      trim fuel ⟨s.digits / 10, s.exponent + 1⟩
    else s

/-- The position of the first digit of the positive fraction `num / den`: the least `p` with
`num / den < 10 ^ p`. -/
def leadingPosition (num den : Nat) : Int :=
  if den ≤ num then
    digitCount (num / den)
  else
    let d : Int := digitCount (den / num)
    if den = num * powTen (d - 1) then 2 - d else 1 - d

/-- A neighbourhood of a positive double, in units of a quarter of its last binary place: the
double itself, and the ends of the interval of reals that round to it. -/
structure Neighbourhood where
  low : Nat
  value : Nat
  high : Nat
  closed : Bool
  unit : Int

/-- The reals that round to `mantissa * 2 ^ exponent`.  The double below a power of two is nearer
than the one above; the ends belong to the interval when the mantissa is even. -/
def Neighbourhood.of (mantissa : Nat) (exponent : Int) : Neighbourhood where
  low := 4 * mantissa - (if mantissa = powTwo 52 && exponent ≠ -1074 then 1 else 2)
  value := 4 * mantissa
  high := 4 * mantissa + 2
  closed := mantissa % 2 = 0
  unit := exponent - 2

/-- The decimal of `count` digits in the neighbourhood that is nearest to its value, if the
neighbourhood has one; of two at the same distance the even one. -/
def Neighbourhood.decimal? (n : Neighbourhood) (position : Int) (count : Nat) :
    Option Scientific :=
  let k := position - count
  let a := powTen k * powTwo (-n.unit)
  let b := powTen (-k) * powTwo n.unit
  let inside (d : Nat) : Bool :=
    if n.closed then n.low * b ≤ d * a && d * a ≤ n.high * b
    else n.low * b < d * a && d * a < n.high * b
  let below := n.value * b / a
  let remainder := n.value * b % a
  match inside below, inside (below + 1) with
  | true, true =>
    if 2 * remainder < a || (2 * remainder = a && below % 2 = 0) then some ⟨below, k⟩
    else some ⟨below + 1, k⟩
  | true, false => some ⟨below, k⟩
  | false, true => some ⟨below + 1, k⟩
  | false, false => none

/-- The shortest decimal that reads back as the positive double `mantissa * 2 ^ exponent`.
Seventeen digits are always enough. -/
def shortest (mantissa : Nat) (exponent : Int) : Scientific :=
  let n := Neighbourhood.of mantissa exponent
  let position := leadingPosition (n.value * powTwo n.unit) (powTwo (-n.unit))
  let found := (List.range 17).findSome? fun i => n.decimal? position (i + 1)
  (found.getD ⟨0, 0⟩).trim 20

end Pddl.Decimal
