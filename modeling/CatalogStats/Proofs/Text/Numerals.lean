import CatalogStats.Domain.Character
import CatalogStats.Number.Power
import CatalogStats.Proofs.Number.Characters
import Mathlib.Data.List.TakeWhile

/-!
# Proofs/Text/Numerals — numbers are read back from their digits

A run of digits continues a number one digit at a time (`valueFrom_cons`), so the digits of a natural
number lead from zero back to it (`value_digits`), also with zeros in front (`value_padded`).  An
integer between the bounds of a reader is read back from its digits and its sign
(`readWhole_signedDigits`).  A run of digits ends at the first character that is none
(`spanDigits_append`).
-/

namespace CatalogStats.Numeral

variable {n a d limit low high fuel width : ℕ} {ds cs rest tail : List Char} {past : Fault}

/-! ## Single digits -/

theorem toNat_digitChar (h : d < 10) : (digitChar d).toNat - 48 = d := by
  have hvalid : (48 + d).isValidChar := by
    simp only [Nat.isValidChar]
    omega
  rw [digitChar, Character.toNat_ofNat hvalid, Nat.add_sub_cancel_left]

/-! ## Runs of digits -/

theorem valueFrom_cons (a : ℕ) (c : Char) (ds : List Char) :
    valueFrom a (c :: ds) = valueFrom (a * 10 + (c.toNat - 48)) ds := List.foldl_cons ..

/-- Reading digits does not make a number smaller. -/
theorem le_valueFrom (a : ℕ) (ds : List Char) : a ≤ valueFrom a ds := by
  induction ds generalizing a with
  | nil => exact Nat.le_refl _
  | cons c ds ih =>
    rw [valueFrom_cons]
    have := ih (a * 10 + (c.toNat - 48))
    omega

theorem valueFrom_append (a : ℕ) (ds es : List Char) :
    valueFrom a (ds ++ es) = valueFrom (valueFrom a ds) es :=
  List.foldl_append

/-- The digits of `n` in front of others continue zero as `n` is continued by the others. -/
theorem valueFrom_digitsOnto (h : n < fuel) :
    valueFrom 0 (digitsOnto fuel n tail) = valueFrom n tail := by
  induction fuel generalizing n tail with
  | zero => exact absurd h (Nat.not_lt_zero _)
  | succ fuel ih =>
    rw [digitsOnto]
    split
    case isTrue hn => rw [valueFrom_cons, toNat_digitChar hn, Nat.zero_mul, Nat.zero_add]
    case isFalse hn =>
      have hmod : n % 10 < 10 := Nat.mod_lt _ (by decide)
      rw [ih (by omega), valueFrom_cons, toNat_digitChar hmod, Nat.div_add_mod']

/-- **A natural number is read back from its digits.** -/
@[simp] theorem value_digits (n : ℕ) : value (digits n) = n := valueFrom_digitsOnto n.lt_succ_self

theorem valueFrom_replicate_zero (k : ℕ) : valueFrom 0 (List.replicate k '0') = 0 := by
  induction k with
  | zero => rfl
  | succ k ih => exact ih

/-- …also with zeros in front. -/
@[simp] theorem value_padded (width n : ℕ) : value (padded width n) = n := by
  have hdigits : valueFrom 0 (digits n) = n := value_digits n
  rw [value, padded, valueFrom_append, valueFrom_replicate_zero, hdigits]

/-! ## The number of digits -/

theorem length_digitsOnto (h : n < fuel) (hw : n < tenTo width) (hpos : 0 < width) :
    (digitsOnto fuel n tail).length ≤ width + tail.length := by
  induction fuel generalizing n width tail with
  | zero => exact absurd h (Nat.not_lt_zero _)
  | succ fuel ih =>
    rw [digitsOnto]
    split
    case isTrue => rw [List.length_cons]; omega
    case isFalse hn =>
      obtain ⟨w, rfl⟩ := Nat.exists_eq_succ_of_ne_zero (Nat.ne_of_gt hpos)
      have hw' : n / 10 < tenTo w := by
        rw [tenTo_succ] at hw
        exact Nat.div_lt_of_lt_mul (by omega)
      have hwpos : 0 < w := Nat.pos_of_ne_zero fun hzero => by
        rw [hzero, tenTo_zero] at hw'
        omega
      have hrest : (digitsOnto fuel (n / 10) (digitChar (n % 10) :: tail)).length ≤
          w + (digitChar (n % 10) :: tail).length := ih (by omega) hw' hwpos
      rw [List.length_cons] at hrest
      omega

/-- A number below a power of ten has no more digits than that. -/
theorem length_digits_le (hw : n < tenTo width) (hpos : 0 < width) : (digits n).length ≤ width :=
  length_digitsOnto n.lt_succ_self hw hpos

theorem le_length_padded (width n : ℕ) : width ≤ (padded width n).length := by
  rw [padded, List.length_append, List.length_replicate]
  omega

/-- **A number that fits is padded to the wanted width.** -/
theorem length_padded (hw : n < tenTo width) (hpos : 0 < width) :
    (padded width n).length = width := by
  have := length_digits_le hw hpos
  rw [padded, List.length_append, List.length_replicate]
  omega

theorem digitsOnto_ne_nil (h : 0 < fuel) : digitsOnto fuel n tail ≠ [] := by
  induction fuel generalizing n tail with
  | zero => exact absurd h (Nat.lt_irrefl 0)
  | succ fuel ih =>
    rw [digitsOnto]
    split
    case isTrue => exact List.cons_ne_nil _ _
    case isFalse =>
      cases fuel with
      | zero => exact List.cons_ne_nil _ _
      | succ fuel => exact ih fuel.succ_pos

theorem digits_ne_nil (n : ℕ) : digits n ≠ [] := digitsOnto_ne_nil n.succ_pos

/-- The digits of a number start with one. -/
theorem exists_digits_eq_cons (n : ℕ) : ∃ c ds, digits n = c :: ds ∧ c.isDigit = true := by
  obtain ⟨c, ds, hds⟩ := List.exists_cons_of_ne_nil (digits_ne_nil n)
  exact ⟨c, ds, hds, isDigit_of_mem_digits c (hds ▸ List.mem_cons_self)⟩

/-- A positive number has no zero in front. -/
theorem head_digitsOnto_ne (h : n < fuel) (hpos : 0 < n) :
    ∀ c ∈ (digitsOnto fuel n tail).head?, c ≠ '0' := by
  induction fuel generalizing n tail with
  | zero => exact absurd h (Nat.not_lt_zero _)
  | succ fuel ih =>
    rw [digitsOnto]
    split
    case isTrue hn =>
      rintro c hc rfl
      have hchar : digitChar n = '0' := Option.some.inj hc
      have hzero := toNat_digitChar hn
      rw [hchar] at hzero
      exact Nat.ne_of_gt hpos hzero.symm
    case isFalse hn => exact ih (by omega) (by omega)

/-! ## The end of a run -/

/-- What follows a run of digits: nothing, or a character that is no digit. -/
def Stops (rest : List Char) : Prop := ∀ c ∈ rest.head?, c.isDigit = false

theorem Stops.takeWhile_dropWhile (h : Stops rest) :
    rest.takeWhile Char.isDigit = [] ∧ rest.dropWhile Char.isDigit = rest := by
  cases rest with
  | nil => exact ⟨rfl, rfl⟩
  | cons c cs =>
    have hc : ¬ c.isDigit = true := by simp [h c rfl]
    exact ⟨List.takeWhile_cons_of_neg hc, List.dropWhile_cons_of_neg hc⟩

theorem spanDigits_append (hds : ∀ c ∈ ds, c.isDigit = true) (hlen : ds.length ≤ limit)
    (hrest : Stops rest) : spanDigits limit (ds ++ rest) = (ds, rest) := by
  have hrun : ((ds ++ rest).take limit).takeWhile Char.isDigit = ds := by
    rw [List.take_append, List.take_of_length_le hlen, List.takeWhile_append_of_pos hds]
    cases rest with
    | nil => simp
    | cons c cs =>
      have hc : c.isDigit = false := hrest c rfl
      cases limit - ds.length with
      | zero => simp
      | succ k => simp [hc]
  rw [spanDigits, hrun, List.drop_left]

/-! ## Signed numbers -/

/-- **Digits are read up to the end of the text.** -/
theorem magnitude_eq_ok (hds : ∀ c ∈ ds, c.isDigit = true) (h : valueFrom a ds ≤ limit) :
    magnitude limit past a ds = .ok (valueFrom a ds) := by
  induction ds generalizing a with
  | nil => rfl
  | cons c ds ih =>
    obtain ⟨hc, hds⟩ := List.forall_mem_cons.1 hds
    have hle : a * 10 + (c.toNat - 48) ≤ limit := Nat.le_trans (le_valueFrom _ ds) h
    rw [magnitude, digit?, if_pos hc]
    dsimp only
    rw [if_neg (Nat.not_lt.2 hle), ih hds h, valueFrom_cons]

theorem unsigned_digits (h : n ≤ limit) : unsigned limit past (digits n) = .ok n := by
  have hvalue : valueFrom 0 (digits n) = n := value_digits n
  obtain ⟨c, ds, hds⟩ := List.exists_cons_of_ne_nil (digits_ne_nil n)
  rw [hds, unsigned, ← hds, magnitude_eq_ok isDigit_of_mem_digits (by omega), hvalue]

/-- **An integer is read back from its text** if it lies between the bounds. -/
theorem readWhole_signedDigits {i : Int} (hlow : -(low : Int) ≤ i) (hhigh : i ≤ high) :
    readWhole low high (signedDigits i) = .ok i := by
  cases i with
  | ofNat n =>
    obtain ⟨c, ds, hds, hc⟩ := exists_digits_eq_cons n
    have hread : unsigned high .tooLarge (c :: ds) = .ok n := by
      rw [← hds]
      exact unsigned_digits (Int.ofNat_le.1 hhigh)
    rw [signedDigits, hds]
    unfold readWhole
    split
    case h_1 heq => cases heq
    case h_2 heq => cases heq; cases hc
    case h_3 heq => cases heq; cases hc
    case h_4 => rw [hread]; rfl
  | negSucc n =>
    rw [signedDigits, readWhole, unsigned_digits (by omega)]
    rfl

end CatalogStats.Numeral
