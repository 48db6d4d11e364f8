/-!
# Decimal digits

Numbers may be written with the decimal digits of any script.  The scripts' digits stand in runs of
ten consecutive code points, so a list of the runs' zeros describes them all.
-/

namespace Pddl.Text

/-- The code points of the digits zero, one for each run of ten decimal digits. -/
def digitZeros : List Nat :=
  [0x30, 0x660, 0x6F0, 0x7C0, 0x966, 0x9E6, 0xA66, 0xAE6, 0xB66, 0xBE6, 0xC66, 0xCE6, 0xD66, 0xDE6,
   0xE50, 0xED0, 0xF20, 0x1040, 0x1090, 0x17E0, 0x1810, 0x1946, 0x19D0, 0x1A80, 0x1A90, 0x1B50,
   0x1BB0, 0x1C40, 0x1C50, 0xA620, 0xA8D0, 0xA900, 0xA9D0, 0xA9F0, 0xAA50, 0xABF0, 0xFF10, 0x104A0,
   0x10D30, 0x11066, 0x110F0, 0x11136, 0x111D0, 0x112F0, 0x11450, 0x114D0, 0x11650, 0x116C0,
   0x11730, 0x118E0, 0x11950, 0x11C50, 0x11D50, 0x11DA0, 0x16A60, 0x16AC0, 0x16B50, 0x1D7CE,
   0x1D7D8, 0x1D7E2, 0x1D7EC, 0x1D7F6, 0x1E140, 0x1E2F0, 0x1E950, 0x1FBF0]

/-- The zero of the run of digits that a character belongs to. -/
def digitZero? (c : Char) : Option Nat :=
  digitZeros.find? fun first => first ≤ c.toNat && c.toNat < first + 10

/-- Is the character a decimal digit of some script? -/
def isDecimalDigit (c : Char) : Bool :=
  (digitZero? c).isSome

/-- The value of a decimal digit; zero for any other character. -/
def digitValue (c : Char) : Nat :=
  match digitZero? c with
  | some first => c.toNat - first
  | none => 0

/-- The natural number that a row of decimal digits spells. -/
def decimalValue (digits : List Char) : Nat :=
  digits.foldl (fun value c => 10 * value + digitValue c) 0

theorem digitValue_lt_ten (c : Char) : digitValue c < 10 := by
  unfold digitValue digitZero?
  split
  · rename_i first found
    have := List.find?_some found
    simp at this
    omega
  · decide

end Pddl.Text
