/-!
# Binary floating point numbers taken apart

The exact value of a finite double is a natural number times a power of two.  Every decimal text of
a double is computed from these two in integer arithmetic.
-/

namespace Pddl.Decimal

/-- The power `2 ^ n`; one for a negative `n`. -/
def powTwo (n : Int) : Nat :=
  Nat.pow 2 n.toNat

/-- The power `10 ^ n`; one for a negative `n`. -/
def powTen (n : Int) : Nat :=
  Nat.pow 10 n.toNat

/-- What a double stands for.  A finite double has the value `mantissa * 2 ^ exponent`, up to the
sign. -/
inductive Double
  | nan
  | infinite (negative : Bool)
  | finite (negative : Bool) (mantissa : Nat) (exponent : Int)
deriving DecidableEq, Repr

/-- The parts of a double with the given bits: a sign, eleven bits of exponent, 52 bits of
mantissa. -/
def Double.ofBits (bits : Nat) : Double :=
  let negative : Bool := bits / powTwo 63 % 2 = 1
  let exponent : Nat := bits / powTwo 52 % powTwo 11
  let mantissa : Nat := bits % powTwo 52
  if exponent = powTwo 11 - 1 then
    if mantissa = 0 then .infinite negative else .nan
  else if exponent = 0 then
    .finite negative mantissa (-1074)
  else
    .finite negative (powTwo 52 + mantissa) ((exponent : Int) - 1075)

/-- The parts of a double. -/
def Double.ofFloat (x : Float) : Double :=
  Double.ofBits x.toBits.toNat

/-- The sign in front of a written number. -/
def signText (negative : Bool) : String :=
  if negative then "-" else ""

end Pddl.Decimal
