/-!
# Decimal numerals

`decimal` writes an integer with all of its digits, however many these are, and `decimalValue` reads
a run of digits. A limit on the number of digits is set where numerals are read, not here.
-/

namespace Imp32.Text

/-- An integer in decimal, with a minus sign in front of a negative one. -/
def decimal (n : Int) : List Char :=
  if n < 0 then '-' :: Nat.toDigits 10 n.natAbs else Nat.toDigits 10 n.natAbs

def digitValue (c : Char) : Nat :=
  c.toNat - '0'.toNat

def valueInBase (base : Nat) (digits : List Nat) : Nat :=
  digits.foldl (fun n d => n * base + d) 0

def decimalValue (digits : List Char) : Nat :=
  valueInBase 10 (digits.map digitValue)

end Imp32.Text
