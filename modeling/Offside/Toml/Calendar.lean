/-!
# Dates and times

- `Date`, `Time`: a day of the calendar and a time of day.
- `Date.isValid`: whether a date is in the calendar.
- `instant`: the moment that a date and time in a zone name.
-/
namespace Offside.Toml

set_option autoImplicit false

structure Date where
  year : Nat
  month : Nat
  day : Nat
  deriving DecidableEq, Repr

structure Time where
  hour : Nat
  minute : Nat
  second : Nat
  microsecond : Nat
  deriving DecidableEq, Repr

def isLeap (year : Nat) : Bool := year % 4 == 0 && (year % 100 != 0 || year % 400 == 0)

def daysOf (year month : Nat) : Nat :=
  if month = 2 then
    if isLeap year then 29 else 28
  else if month = 4 ∨ month = 6 ∨ month = 9 ∨ month = 11 then 30
  else 31

namespace Date

/-- Whether a date is in the calendar, which starts with the year one. -/
def isValid (d : Date) : Bool := 1 ≤ d.year && d.day ≤ daysOf d.year d.month

def daysBeforeYear (d : Date) : Nat :=
  let years := d.year - 1
  365 * years + years / 4 - years / 100 + years / 400

def daysBeforeMonth (d : Date) : Nat :=
  ((List.range (d.month - 1)).map fun n => daysOf d.year (n + 1)).foldl (· + ·) 0

/-- The number of a date, where the first day of the calendar has the number one. -/
def number (d : Date) : Nat := d.daysBeforeYear + d.daysBeforeMonth + d.day

end Date

def Time.seconds (t : Time) : Nat := (t.hour * 60 + t.minute) * 60 + t.second

/-- The moment that a date and time name in a zone with an offset in minutes: seconds that have
passed since a fixed one, and millionths of a second. -/
def instant (d : Date) (t : Time) (offset : Int) : Int × Nat :=
  (d.number * 86400 + t.seconds - offset * 60, t.microsecond)

end Offside.Toml
