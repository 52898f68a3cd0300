/-!
# Calendar/Civil — year, month and day against the count of days

The Gregorian calendar is extended to all years, year 0 included.  Days are counted from the first
of March of year 0: with years that begin in March, the leap day is the last day of a year, and the
calendar repeats every 400 years of 146097 days.
-/

namespace CatalogStats.Calendar

/-- A year, a month from one to twelve and a day of the month. -/
structure Civil where
  year : Int
  month : Nat
  day : Nat
  deriving Repr, DecidableEq

/-- Days before a month, counted from March as month zero. -/
def daysBefore (march : Nat) : Nat := (153 * march + 2) / 5

/-- Days before a year within its 400 years. -/
def daysBeforeYear (year : Nat) : Nat := year * 365 + year / 4 - year / 100

/-- **The number of a day**, zero for the first of March of year 0. -/
def dayNumber (c : Civil) : Int :=
  let year := if c.month ≤ 2 then c.year - 1 else c.year
  let cycle := year.fdiv 400
  let inCycle := (year - cycle * 400).toNat
  let march := (c.month + 9) % 12
  cycle * 146097 + (daysBeforeYear inCycle + daysBefore march : Nat) + c.day - 1

/-- **The year, month and day of a numbered day.** -/
def civil (n : Int) : Civil :=
  let cycle := n.fdiv 146097
  let inCycle := (n - cycle * 146097).toNat
  let year := (inCycle - inCycle / 1460 + inCycle / 36524 - inCycle / 146096) / 365
  let inYear := inCycle - daysBeforeYear year
  let march := (5 * inYear + 2) / 153
  let month := if march < 10 then march + 3 else march - 9
  let fromMarch : Int := year + cycle * 400
  { year := if month ≤ 2 then fromMarch + 1 else fromMarch
    month := month
    day := inYear - daysBefore march + 1 }

end CatalogStats.Calendar
