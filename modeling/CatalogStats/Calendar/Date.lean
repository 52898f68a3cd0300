import CatalogStats.Calendar.Civil
import CatalogStats.Domain.Numbered
import CatalogStats.Text.Numeral

/-!
# Calendar/Date — the days of the calendar

A date is the number of a day between the first of January of the year -262143 and the last of
December of the year 262142.  It is written as year, month and day.
-/

namespace CatalogStats

/-- A day of the calendar. -/
structure Date where
  day : Int
  lower : -95745824 ≤ day
  upper : day ≤ 95745704
  deriving DecidableEq

namespace Date

open Calendar

/-- The date with a day number, if the calendar has it. -/
def ofDay? (n : Int) : Option Date :=
  if h : -95745824 ≤ n ∧ n ≤ 95745704 then some ⟨n, h.1, h.2⟩ else none

/-- The year, month and day of a date. -/
def civil (d : Date) : Civil := Calendar.civil d.day

/-- **The date of a year, month and day.**  There is one when the day number leads back to them,
which no thirtieth of February does. -/
def ofCivil? (c : Civil) : Option Date :=
  if Calendar.civil (dayNumber c) = c then ofDay? (dayNumber c) else none

/-- Years of four digits stand as they are, all others have a sign. -/
def yearChars (y : Int) : List Char :=
  let digits := Numeral.padded 4 y.natAbs
  if y < 0 then '-' :: digits else if 9999 < y then '+' :: digits else digits

/-- Year, month and day with hyphens between them. -/
def chars (d : Date) : List Char :=
  let c := d.civil
  yearChars c.year ++ '-' :: Numeral.padded 2 c.month ++ '-' :: Numeral.padded 2 c.day

/-- A date as a text. -/
def text (d : Date) : String := String.ofList d.chars

theorem day_of_ofDay? {i : Int} {d : Date} (h : ofDay? i = some d) : d.day = i := by
  unfold ofDay? at h
  split at h
  · exact (Option.some.inj h) ▸ rfl
  · cases h

@[simp] theorem ofDay?_day (d : Date) : ofDay? d.day = some d := dif_pos ⟨d.lower, d.upper⟩

/-- Consecutive days have consecutive numbers. -/
def numbering : Numbering Date where
  first := -95745824
  last := 95745704
  index := day
  value? := ofDay?
  value?_index := ofDay?_day
  index_of_value? := day_of_ofDay?
  isSome_value?_iff i := by
    unfold ofDay?
    split <;> simp_all

end Date

/-- **The domain of dates.** -/
def Domain.date : Domain Date := Date.numbering.domain "date" Date.text

end CatalogStats
