import CatalogStats.Calendar.Reading
import CatalogStats.Proofs.Calendar.Civil
import CatalogStats.Proofs.Text.Numerals
import CatalogStats.Proofs.Text.Quoting

/-!
# Proofs/Calendar/Reading — dates are read back from their text

Between the parts of a date stand hyphens, which end a run of digits, so each part is read back: months
and days have two digits, and a year that does not have four carries a sign (`year_yearChars`).
-/

namespace CatalogStats

namespace Calendar

open Numeral Text

variable {n low high limit width : ℕ} {ds rest : List Char}

theorem digitRun_append (hds : ∀ c ∈ ds, c.isDigit = true) (hne : ds ≠ []) (hlen : ds.length ≤ limit)
    (hrest : Stops rest) : digitRun limit (ds ++ rest) = some (value ds, rest) := by
  rw [digitRun, spanDigits_append hds hlen hrest]
  cases ds with
  | nil => exact absurd rfl hne
  | cons c ds => rfl

theorem padded_ne_nil (width n : ℕ) : padded width n ≠ [] :=
  List.append_ne_nil_of_right_ne_nil _ (digits_ne_nil n)

theorem trimStart_append (hds : ∀ c ∈ ds, c.isDigit = true) (hne : ds ≠ []) (rest : List Char) :
    trimStart (ds ++ rest) = ds ++ rest := by
  obtain ⟨c, cs, rfl⟩ := List.exists_cons_of_ne_nil hne
  obtain ⟨hc, _⟩ := List.forall_mem_cons.1 hds
  exact trimStart_cons_of_not_blank _ (isBlank_of_isDigit hc)

theorem field_padded (hlow : low ≤ n) (hhigh : n ≤ high) (hn : n < 100) (hrest : Stops rest) :
    field low high (padded 2 n ++ rest) = some (n, rest) := by
  have hlen : (padded 2 n).length = 2 := length_padded (n.lt_of_lt_of_le hn (by decide)) (by decide)
  rw [field, trimStart_append isDigit_of_mem_padded (padded_ne_nil 2 n),
    digitRun_append isDigit_of_mem_padded (padded_ne_nil 2 n) (Nat.le_of_eq hlen) hrest,
    value_padded]
  exact if_pos ⟨hlow, hhigh⟩

/-- All digits behind a sign are read. -/
theorem digitRun_padded (width n : ℕ) (hrest : Stops rest) :
    digitRun (padded width n ++ rest).length (padded width n ++ rest) = some (n, rest) := by
  rw [digitRun_append isDigit_of_mem_padded (padded_ne_nil width n) (by simp) hrest, value_padded]

/-- …and without a sign four of them. -/
theorem year_unsigned (hn : n < 10000) (hrest : Stops rest) :
    year (padded 4 n ++ rest) = some ((n : Int), rest) := by
  have hdigits : ∀ c ∈ padded 4 n, c.isDigit = true := isDigit_of_mem_padded
  have hne := padded_ne_nil 4 n
  have hlen : (padded 4 n).length = 4 := length_padded hn (by decide)
  have hrun := digitRun_append hdigits hne (Nat.le_of_eq hlen) hrest
  rw [value_padded] at hrun
  rw [year, trimStart_append hdigits hne]
  obtain ⟨c, cs, hcons⟩ := List.exists_cons_of_ne_nil hne
  have hc : c.isDigit = true := hdigits c (hcons ▸ List.mem_cons_self)
  rw [hcons, List.cons_append] at hrun ⊢
  split
  case h_1 heq => cases heq; cases hc
  case h_2 heq => cases heq; cases hc
  case h_3 => rw [hrun, Option.map_some]

/-- **A year is read back from its text**: four digits without a sign, or all digits behind one. -/
theorem year_yearChars (y : Int) (hrest : Stops rest) :
    year (Date.yearChars y ++ rest) = some (y, rest) := by
  simp only [Date.yearChars]
  split
  case isTrue hneg =>
    have hy : -(y.natAbs : Int) = y := by omega
    rw [List.cons_append, year, trimStart_cons_of_not_blank _ (by decide)]
    change (digitRun _ _).map _ = _
    rw [digitRun_padded 4 y.natAbs hrest]
    exact congrArg (fun y => some (y, rest)) hy
  case isFalse hnonneg =>
  have hy : (y.natAbs : Int) = y := by omega
  split
  case isTrue hlarge =>
    rw [List.cons_append, year, trimStart_cons_of_not_blank _ (by decide)]
    change (digitRun _ _).map _ = _
    rw [digitRun_padded 4 y.natAbs hrest]
    exact congrArg (fun y => some (y, rest)) hy
  case isFalse hsmall => rw [year_unsigned (by omega) hrest, hy]

/-- **Year, month and day are read back** from the text of a date. -/
theorem readCivil_chars (d : Date) : readCivil d.chars = some (d.civil, []) := by
  obtain ⟨hm, hm', hd, hd'⟩ : 1 ≤ d.civil.month ∧ d.civil.month ≤ 12 ∧
      1 ≤ d.civil.day ∧ d.civil.day ≤ 31 := civil_bounds d.day
  have hhyphen : ∀ cs, Stops ('-' :: cs) := fun cs c hc => Option.some.inj hc ▸ rfl
  have hday : field 1 31 (padded 2 d.civil.day ++ []) = some (d.civil.day, []) :=
    field_padded hd hd' (by omega) nofun
  rw [List.append_nil] at hday
  have hmonth := field_padded hm hm' (by omega) (hhyphen (padded 2 d.civil.day))
  have hchars : d.chars = Date.yearChars d.civil.year ++
      '-' :: (padded 2 d.civil.month ++ '-' :: padded 2 d.civil.day) := by
    rw [Date.chars, List.append_assoc, List.cons_append]
  have hafter : ∀ cs, after '-' ('-' :: cs) = some cs := fun cs => by rw [after, if_pos rfl]
  simp only [readCivil, hchars, year_yearChars _ (hhyphen _), hafter, hmonth, hday,
    Option.bind_eq_bind, Option.bind_some]

end Calendar

/-- **A date is written with digits, hyphens and a plus sign.** -/
theorem Date.isDigit_or_eq_of_mem_chars (d : Date) :
    ∀ c ∈ d.chars, c.isDigit = true ∨ c = '-' ∨ c = '+' := by
  have hyear : ∀ c ∈ yearChars d.civil.year, c.isDigit = true ∨ c = '-' ∨ c = '+' := by
    have hdigits : ∀ c ∈ Numeral.padded 4 d.civil.year.natAbs,
        c.isDigit = true ∨ c = '-' ∨ c = '+' := fun c hc => .inl (Numeral.isDigit_of_mem_padded c hc)
    simp only [yearChars]
    split
    case isTrue => exact List.forall_mem_cons.2 ⟨.inr (.inl rfl), hdigits⟩
    case isFalse =>
    split
    case isTrue => exact List.forall_mem_cons.2 ⟨.inr (.inr rfl), hdigits⟩
    case isFalse => exact hdigits
  have hpart : ∀ n, ∀ c ∈ '-' :: Numeral.padded 2 n, c.isDigit = true ∨ c = '-' ∨ c = '+' :=
    fun n => List.forall_mem_cons.2
      ⟨.inr (.inl rfl), fun c hc => .inl (Numeral.isDigit_of_mem_padded c hc)⟩
  exact List.forall_mem_append.2 ⟨List.forall_mem_append.2 ⟨hyear, hpart _⟩, hpart _⟩

/-- **A date is read back from its text.** -/
theorem Date.ofChars?_chars (d : Date) : ofChars? d.chars = some d := by
  have hcivil : Calendar.civil (Calendar.dayNumber d.civil) = d.civil :=
    congrArg Calendar.civil (Calendar.dayNumber_civil d.day)
  have hday : Calendar.dayNumber d.civil = d.day := Calendar.dayNumber_civil d.day
  rw [ofChars?, Calendar.readCivil_chars]
  change ofCivil? d.civil = some d
  rw [ofCivil?, if_pos hcivil, hday, ofDay?_day]

end CatalogStats
