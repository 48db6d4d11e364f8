import Pddl.Decimal.Binary

/-!
# Decimals with a fixed number of places

`fixed places x` writes the exact value of a double rounded to a number of places; a half goes to
the even neighbour.
-/

namespace Pddl.Decimal

/-- The quotient rounded to the nearest natural number, a half to the even one. -/
def roundDiv (num den : Nat) : Nat :=
  let q := num / den
  let r := num % den
  if 2 * r < den then q
  else if 2 * r = den && q % 2 = 0 then q
  else q + 1

/-- A natural number written with at least `width` digits. -/
def padLeft (width n : Nat) : String :=
  let digits := toString n
  String.ofList (List.replicate (width - digits.length) '0') ++ digits

/-- The number `n / 10 ^ places` with a point before its last `places` digits. -/
def withPoint (places n : Nat) : String :=
  toString (n / powTen places) ++ "." ++ padLeft places (n % powTen places)

/-- A double with a fixed, positive number of places. -/
def fixed (places : Nat) (x : Float) : String :=
  match Double.ofFloat x with
  | .nan => "nan"
  | .infinite negative => signText negative ++ "inf"
  | .finite negative mantissa exponent =>
    let scaled := roundDiv (mantissa * powTen places * powTwo exponent) (powTwo (-exponent))
    signText negative ++ withPoint places scaled

end Pddl.Decimal
