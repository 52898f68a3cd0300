import CatalogStats.Calendar.Civil
import Mathlib.Data.Nat.Notation

/-!
# Proofs/Calendar/Civil — the number of a day and its date determine each other

Within 400 years, a day splits into a century, four years, a year and a day of the year
(`exists_parts`), from which its year follows (`year_bounds`).  So the number of a day is that of its
year, month and day (`dayNumber_civil`).
-/

namespace CatalogStats.Calendar

variable {c : ℕ}

/-! ## Days within 400 years -/

/-- The century, the four years, the year and the day of all but the last day of 400 years. -/
theorem exists_parts (h : c < 146096) : ∃ k q r s, c = 36524 * k + 1461 * q + 365 * r + s ∧
    k ≤ 3 ∧ q ≤ 24 ∧ r ≤ 3 ∧ s ≤ 365 ∧ (s = 365 → r = 3 ∧ q ≤ 23) := by
  have hk := Nat.div_add_mod c 36524
  have hq := Nat.div_add_mod (c % 36524) 1461
  refine ⟨c / 36524, c % 36524 / 1461, min (c % 36524 % 1461 / 365) 3,
    c % 36524 % 1461 - 365 * min (c % 36524 % 1461 / 365) 3, ?_, ?_, ?_, ?_, ?_, ?_⟩ <;> omega

/-- The year of a day, from the parts of the day. -/
theorem year_of_parts {k q r s : ℕ} (hk : k ≤ 3) (hq : q ≤ 24) (hr : r ≤ 3) (hs : s ≤ 365)
    (hleap : s = 365 → r = 3 ∧ q ≤ 23) (hc : c = 36524 * k + 1461 * q + 365 * r + s) :
    (c - c / 1460 + c / 36524 - c / 146096) / 365 = 100 * k + 4 * q + r := by
  have h₁ : c / 36524 = k := by omega
  have h₂ : c / 146096 = 0 := by omega
  have h₃ : c / 1460 = 25 * k + q + (24 * k + q + 365 * r + s) / 1460 := by omega
  rw [h₁, h₂, h₃]
  omega

/-- **The year of a day within 400 years** starts at most 365 days before it. -/
theorem year_bounds (h : c < 146097) :
    let y := (c - c / 1460 + c / 36524 - c / 146096) / 365
    y < 400 ∧ daysBeforeYear y ≤ c ∧ c ≤ daysBeforeYear y + 365 := by
  obtain hlast | hlt : c = 146096 ∨ c < 146096 := by omega
  · subst hlast
    decide
  obtain ⟨k, q, r, s, hc, hk, hq, hr, hs, hleap⟩ := exists_parts hlt
  have hfour : (100 * k + 4 * q + r) / 4 = 25 * k + q := by omega
  have hcentury : (100 * k + 4 * q + r) / 100 = k := by omega
  dsimp only
  rw [year_of_parts hk hq hr hs hleap hc, daysBeforeYear, hfour, hcentury]
  omega

/-- The month of a day within a year that starts in March. -/
theorem month_bounds {d : ℕ} (h : d ≤ 365) :
    let m := (5 * d + 2) / 153
    m ≤ 11 ∧ daysBefore m ≤ d ∧ d ≤ daysBefore m + 30 := by
  simp only [daysBefore]
  omega

/-! ## Days and dates -/

/-- A day lies in one of its 400 years. -/
theorem cycle_bounds (n : Int) : (n - n.fdiv 146097 * 146097).toNat < 146097 ∧
    n = n.fdiv 146097 * 146097 + (n - n.fdiv 146097 * 146097).toNat := by
  rw [Int.fdiv_eq_ediv_of_nonneg n (by decide)]
  omega

/-- Months have the numbers one to twelve, and days those from one to thirty-one. -/
theorem civil_bounds (n : Int) : 1 ≤ (civil n).month ∧ (civil n).month ≤ 12 ∧
    1 ≤ (civil n).day ∧ (civil n).day ≤ 31 := by
  obtain ⟨hc, _⟩ := cycle_bounds n
  obtain ⟨hy, hle, hge⟩ := year_bounds hc
  simp only [civil]
  generalize (n - n.fdiv 146097 * 146097).toNat = c at *
  generalize (c - c / 1460 + c / 36524 - c / 146096) / 365 = y at *
  obtain ⟨hm, hm', hm''⟩ := month_bounds (d := c - daysBeforeYear y) (by omega)
  generalize (5 * (c - daysBeforeYear y) + 2) / 153 = m at *
  split <;> omega

/-- Years that begin in March, counted from those of the calendar. -/
theorem dayNumber_eq {year : Int} {y m d : ℕ} {cycle : Int} (hy : y < 400) (hm : m ≤ 11)
    (hyear : year = y + cycle * 400) :
    dayNumber ⟨if (if m < 10 then m + 3 else m - 9) ≤ 2 then year + 1 else year,
      if m < 10 then m + 3 else m - 9, d⟩ =
      cycle * 146097 + (daysBeforeYear y + daysBefore m : ℕ) + d - 1 := by
  have hcycle : year.fdiv 400 = cycle := by
    rw [Int.fdiv_eq_ediv_of_nonneg _ (by decide)]
    omega
  have hin : (year - cycle * 400).toNat = y := by omega
  simp only [dayNumber]
  obtain hlt | hge : m < 10 ∨ 10 ≤ m := by omega
  · have hmarch : (m + 3 + 9) % 12 = m := by omega
    rw [if_pos hlt, if_neg (by omega), if_neg (by omega), hcycle, hin, hmarch]
  · have hmarch : (m - 9 + 9) % 12 = m := by omega
    rw [if_neg (Nat.not_lt.2 hge), if_pos (show m - 9 ≤ 2 by omega),
      if_pos (show m - 9 ≤ 2 by omega), Int.add_sub_cancel, hcycle, hin, hmarch]

/-- **The number of a day is that of its year, month and day.** -/
theorem dayNumber_civil (n : Int) : dayNumber (civil n) = n := by
  obtain ⟨hc, hn⟩ := cycle_bounds n
  obtain ⟨hy, hle, hge⟩ := year_bounds hc
  rw [civil]
  generalize (n - n.fdiv 146097 * 146097).toNat = c at *
  generalize n.fdiv 146097 = cycle at *
  generalize (c - c / 1460 + c / 36524 - c / 146096) / 365 = y at *
  obtain ⟨hm, hm', hm''⟩ := month_bounds (d := c - daysBeforeYear y) (by omega)
  generalize (5 * (c - daysBeforeYear y) + 2) / 153 = m at *
  rw [dayNumber_eq hy hm rfl]
  omega

end CatalogStats.Calendar
