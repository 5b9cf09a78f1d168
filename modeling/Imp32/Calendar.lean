/-!
# Dates and times of day

A date is a day that exists in the calendar, from the year 1 to the year 9999. A time of day is
counted in microseconds. Both are written with a fixed number of digits, the microseconds only if
there are any.
-/

namespace Imp32

/-- A number in decimal, with zeros in front of it up to a width. -/
def padded (width n : Nat) : String :=
  let digits := Nat.toDigits 10 n
  String.ofList (List.replicate (width - digits.length) '0' ++ digits)

def isLeapYear (year : Nat) : Bool :=
  year % 4 = 0 && (year % 100 ≠ 0 || year % 400 = 0)

def daysInMonth (year month : Nat) : Nat :=
  if month = 2 then (if isLeapYear year then 29 else 28)
  else if month = 4 || month = 6 || month = 9 || month = 11 then 30
  else 31

/-- A day of the calendar. -/
structure Date where
  year : Nat
  month : Nat
  day : Nat
  deriving DecidableEq, Repr

namespace Date

/-- The day with these numbers, if there is one. -/
def ofNumbers? (year month day : Nat) : Option Date :=
  if 1 ≤ year ∧ year ≤ 9999 ∧ 1 ≤ month ∧ month ≤ 12 ∧ 1 ≤ day ∧ day ≤ daysInMonth year month then
    some ⟨year, month, day⟩
  else none

def text (d : Date) : String :=
  s!"{padded 4 d.year}-{padded 2 d.month}-{padded 2 d.day}"

end Date

/-- A time of day. -/
structure TimeOfDay where
  hour : Nat
  minute : Nat
  second : Nat
  microsecond : Nat
  deriving DecidableEq, Repr

namespace TimeOfDay

def text (t : TimeOfDay) : String :=
  s!"{padded 2 t.hour}:{padded 2 t.minute}:{padded 2 t.second}" ++
    if t.microsecond = 0 then "" else s!".{padded 6 t.microsecond}"

end TimeOfDay

/-- An offset from universal time in minutes, as it is written. -/
def offsetText (minutes : Int) : String :=
  let sign := if minutes < 0 then "-" else "+"
  s!"{sign}{padded 2 (minutes.natAbs / 60)}:{padded 2 (minutes.natAbs % 60)}"

end Imp32
