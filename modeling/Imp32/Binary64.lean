/-!
# Binary numbers of 64 bits

A finite number is a whole number of units, where the unit is the smallest positive number, 2 to
the power of -1074, and 53 bits of the whole number count. A decimal is rounded to the nearest of
these numbers, and if two are equally near, to the one whose last bit is zero. From 2 to the power
of 1024 on a number is infinite.
-/

namespace Imp32

/-- A decimal: whole digits times a power of ten. -/
structure Decimal where
  digits : Nat
  exponent : Int
  deriving DecidableEq, Repr

namespace Decimal

def numeral (d : Decimal) : List Char :=
  Nat.toDigits 10 d.digits

/-- The number of digits in front of the point. Zeros right behind the point count below none. -/
def point (d : Decimal) : Int :=
  d.numeral.length + d.exponent

/-- The power of ten that the digits are multiplied by, if it is one. -/
def factor (d : Decimal) : Nat :=
  Nat.pow 10 d.exponent.toNat

/-- The power of ten that the digits are divided by, if it is one. -/
def divisor (d : Decimal) : Nat :=
  Nat.pow 10 (-d.exponent).toNat

end Decimal

/-- A binary number of 64 bits. -/
inductive Binary64 where
  | finite (negative : Bool) (units : Nat)
  | infinite (negative : Bool)
  | nan
  deriving DecidableEq, Repr

namespace Binary64

/-- The number of units in one. -/
def one : Nat := Nat.pow 2 1074

/-- The number of units that no finite number has or exceeds. -/
def bound : Nat := Nat.pow 2 2098

/-! ## Rounding -/

/-- The whole number nearest to a fraction, the even one if two are. -/
def nearest (num den : Nat) : Nat :=
  let below := num / den
  let rest := 2 * (num % den)
  if rest < den ∨ (rest = den ∧ below % 2 = 0) then below else below + 1

/-- What the last bit that counts is worth. -/
def lastPlace (units : Nat) : Nat :=
  Nat.pow 2 (units.log2 - 52)

/-- A fraction of units, rounded to the bits that count. -/
def roundUnits (num den : Nat) : Nat :=
  let place := lastPlace (num / den)
  nearest num (den * place) * place

/-- The units of a decimal, which are at least the bound if it is too great. A decimal far below
the unit or far beyond the bound is not worked out. -/
def unitsOf (d : Decimal) : Nat :=
  if d.digits = 0 ∨ d.point < -323 then 0
  else if 309 < d.point then bound
  else roundUnits (d.digits * d.factor * one) d.divisor

/-- The number that a decimal with a sign is rounded to. -/
def ofDecimal (negative : Bool) (d : Decimal) : Binary64 :=
  let units := unitsOf d
  if units < bound then .finite negative units else .infinite negative

/-! ## Properties -/

/-- Whether a number is zero, of either sign. -/
def isZero : Binary64 → Bool
  | finite _ units => units = 0
  | _ => false

/-- The greatest whole number that is not above a number. -/
def floor? : Binary64 → Option Int
  | finite false units => some (units / one : Nat)
  | finite true units => some (-((units + one - 1) / one : Nat))
  | _ => none

end Binary64

end Imp32
