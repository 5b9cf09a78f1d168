import Imp32.Binary64

/-!
# The shortest decimals of binary numbers

A number is written with as few digits as are rounded to it again, and with those nearest to it if
several are. Digits are written with a point from 0.0001 on and below 10 to the power of 16, and
with an exponent otherwise.
-/

namespace Imp32.Binary64

/-- The number of digits in front of the point of a positive number of units. Moving the point by
400 digits leaves no number behind it. -/
def pointOf (units : Nat) : Int :=
  (Nat.toDigits 10 (units * Nat.pow 10 400 / one)).length - 400

/-- The two decimals with an exponent between which a number of units is, the nearer one first, or
the even one if both are equally near. -/
def neighbours (units : Nat) (exponent : Int) : List Decimal :=
  let num := units * Nat.pow 10 (-exponent).toNat
  let den := one * Nat.pow 10 exponent.toNat
  let near := nearest num den
  [⟨near, exponent⟩, ⟨2 * (num / den) + 1 - near, exponent⟩]

def exact (units : Nat) : Decimal :=
  ⟨units * Nat.pow 5 1074, -1074⟩

/-- The decimals of at most 17 digits next to a number of units, those with fewer digits first. -/
def candidates (units : Nat) : List Decimal :=
  let point := pointOf units
  (List.range 17).flatMap fun (n : Nat) => neighbours units (point - 1 - n)

/-- The shortest decimal that is rounded to a number of units. -/
def shortest (units : Nat) : Decimal :=
  ((candidates units).find? fun d => unitsOf d = units).getD (exact units)

/-! ## Notation -/

def dropZeros (digits : List Char) : List Char :=
  (digits.reverse.dropWhile (· = '0')).reverse

/-- Digits with their point, and with a zero where there is no digit on one side of it. -/
def positional (digits : List Char) (point : Int) : List Char :=
  if point ≤ 0 then '0' :: '.' :: (List.replicate (-point).toNat '0' ++ digits)
  else
    let filled := digits ++ List.replicate (point.toNat + 1 - digits.length) '0'
    filled.take point.toNat ++ '.' :: filled.drop point.toNat

/-- An exponent, with its sign and two digits at least. -/
def exponentText (exponent : Int) : List Char :=
  let digits := Nat.toDigits 10 exponent.natAbs
  'e' :: (if exponent < 0 then '-' else '+') ::
    (List.replicate (2 - digits.length) '0' ++ digits)

/-- Digits with the point behind the first, if there are more, and an exponent. -/
def scientific (digits : List Char) (point : Int) : List Char :=
  let behind := digits.tail
  digits.take 1 ++ (if behind.isEmpty then [] else '.' :: behind) ++ exponentText (point - 1)

def decimalText (d : Decimal) : List Char :=
  let digits := dropZeros d.numeral
  if -4 < d.point ∧ d.point ≤ 16 then positional digits d.point
  else scientific digits d.point

/-- A number as it is written. -/
def text : Binary64 → String
  | finite negative units =>
    (if negative then "-" else "") ++
      if units = 0 then "0.0" else String.ofList (decimalText (shortest units))
  | infinite negative => if negative then "-inf" else "inf"
  | nan => "nan"

end Imp32.Binary64
