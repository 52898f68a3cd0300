import CatalogStats.Proofs.Number.Binary64
import Mathlib.Algebra.Order.AbsoluteValue.Basic
import Mathlib.Algebra.Order.Field.Power
import Mathlib.Algebra.Order.Field.Rat
import Mathlib.Tactic.Linarith
import Mathlib.Tactic.NormNum
import Mathlib.Tactic.Positivity

/-!
# Proofs/Number/Rounding — rounding keeps the order

The value of a number of double precision is a rational.  A ratio is rounded to a value at most half
a unit of its last place away (`abs_value_ofRatio_sub_le`), and never past the value of a greater one
(`value_ofRatio_le`).  So quotients with one denominator stand in the order of their numerators
(`value_quotient_le`), and below `2 ^ 53` no two of them fall together (`value_quotient_lt`).
-/

namespace CatalogStats

theorem cast_twoTo (n : ℕ) : ((twoTo n : ℕ) : ℚ) = 2 ^ n := Nat.cast_pow 2 n

/-! ## Rounding to a natural number -/

section RoundHalfEven

variable {n d n' d' : ℕ}

/-- **A greater quotient is not rounded to less.** -/
theorem roundHalfEven_mono (hd : 0 < d) (hd' : 0 < d') (h : n * d' ≤ n' * d) :
    roundHalfEven n d ≤ roundHalfEven n' d' := by
  have hn := Nat.div_add_mod n d
  have hn' := Nat.div_add_mod n' d'
  have hr := Nat.mod_lt n hd
  have hdiv : n / d ≤ n' / d' := by
    refine (Nat.le_div_iff_mul_le hd').2 (Nat.le_of_mul_le_mul_right ?_ hd)
    calc n / d * d' * d = d * (n / d) * d' := by ring
      _ ≤ n * d' := Nat.mul_le_mul_right _ (Nat.mul_div_le n d)
      _ ≤ n' * d := h
  obtain hlt | heq := hdiv.lt_or_eq
  · exact (roundHalfEven_le n d).trans (hlt.trans_le (le_roundHalfEven n' d'))
  -- With one whole part the remainders decide: what is rounded down on the right is on the left.
  have hmod : n % d * d' ≤ n' % d' * d := by
    rw [← hn, ← hn', ← heq] at h
    nlinarith
  have hdown : 2 * (n' % d') < d' ∨ 2 * (n' % d') = d' ∧ n' / d' % 2 = 0 →
      2 * (n % d) < d ∨ 2 * (n % d) = d ∧ n / d % 2 = 0 := by
    rintro (hlt | ⟨hhalf, heven⟩)
    · exact .inl (Nat.lt_of_mul_lt_mul_right (a := d') (by nlinarith))
    · have hle : 2 * (n % d) ≤ d := Nat.le_of_mul_le_mul_right (by nlinarith) hd'
      exact hle.lt_or_eq.imp_right fun hhalf => ⟨hhalf, heq ▸ heven⟩
  simp only [roundHalfEven]
  split
  case isTrue => exact hdiv.trans (le_roundHalfEven n' d')
  case isFalse hup => rw [if_neg (mt hdown hup), heq]

/-- **A quotient is rounded by at most a half.** -/
theorem abs_roundHalfEven_sub_le (hd : 0 < d) : |(roundHalfEven n d : ℚ) - n / d| ≤ 1 / 2 := by
  have hpos : (0 : ℚ) < d := Nat.cast_pos.2 hd
  have hn := Nat.div_add_mod n d
  have hr := Nat.mod_lt n hd
  have hnear : 2 * (roundHalfEven n d * d) ≤ 2 * n + d ∧ 2 * n ≤ 2 * (roundHalfEven n d * d) + d := by
    simp only [roundHalfEven]
    generalize n / d = q at *
    generalize n % d = r at *
    rw [← hn]
    split
    · have hle : 2 * r ≤ d := by omega
      constructor <;> nlinarith
    · have hle : d ≤ 2 * r := by omega
      constructor <;> nlinarith
  obtain ⟨habove, hbelow⟩ := hnear
  have habove : 2 * (roundHalfEven n d * d : ℚ) ≤ 2 * n + d := by exact_mod_cast habove
  have hbelow : 2 * (n : ℚ) ≤ 2 * (roundHalfEven n d * d) + d := by exact_mod_cast hbelow
  rw [abs_le]
  constructor
  · rw [neg_le_sub_iff_le_add, div_le_iff₀ hpos]
    linarith
  · rw [sub_le_iff_le_add, ← sub_le_iff_le_add', le_div_iff₀ hpos]
    linarith

end RoundHalfEven

namespace Binary64

variable {num den num' den' n m d : ℕ} {x y : Binary64}

/-! ## Values -/

/-- **The value of a number**, a rational. -/
def value (x : Binary64) : ℚ := x.significand * 2 ^ x.exponent

theorem twoTo_div_twoTo (e : ℤ) : (twoTo e.toNat : ℚ) / twoTo (-e).toNat = 2 ^ e := by
  rw [cast_twoTo, cast_twoTo]
  obtain ⟨n, rfl | rfl⟩ := e.eq_nat_or_neg
  · simp
  · simp

theorem toRatio_div (x : Binary64) : (x.toRatio.1 : ℚ) / x.toRatio.2 = x.value := by
  rw [toRatio, value, Nat.cast_mul, mul_div_assoc, twoTo_div_twoTo]

theorem scaled_div (num den : ℕ) (e : ℤ) :
    ((scaled num den e).1 : ℚ) / (scaled num den e).2 = num / den / 2 ^ e := by
  have he := twoTo_div_twoTo (-e)
  rw [neg_neg, zpow_neg] at he
  rw [scaled, Nat.cast_mul, Nat.cast_mul, mul_div_mul_comm, he, ← div_eq_mul_inv]

/-- **The exponent of a ratio** is that of its last place, if it is written with 53 bits. -/
theorem quantum_spec_rat (hnum : 0 < num) (hden : 0 < den) :
    2 ^ (quantum num den + 52) ≤ (num / den : ℚ) ∧
      (num / den : ℚ) < 2 ^ (quantum num den + 53) := by
  obtain ⟨hlow, hhigh⟩ := quantum_spec hnum hden
  have hpos : (0 : ℚ) < (scaled num den (quantum num den)).2 :=
    Nat.cast_pos.2 (scaled_snd_pos hden _)
  have hscale : (0 : ℚ) < 2 ^ quantum num den := by positivity
  have hdiv := scaled_div num den (quantum num den)
  rw [zpow_add₀ (by norm_num), zpow_add₀ (by norm_num), ← le_div_iff₀' hscale,
    ← div_lt_iff₀' hscale, ← hdiv, le_div_iff₀ hpos, div_lt_iff₀ hpos]
  constructor
  · rw [mul_comm]
    exact_mod_cast hlow
  · rw [mul_comm]
    exact_mod_cast hhigh

/-- The last place of a ratio below one. -/
theorem quantum_le_of_lt_one (hnum : 0 < num) (hden : 0 < den) (h : (num / den : ℚ) < 1) :
    quantum num den ≤ -53 := by
  have hlt := (quantum_spec_rat hnum hden).1.trans_lt h
  rw [← zpow_zero (2 : ℚ)] at hlt
  have hexp := (zpow_lt_zpow_iff_right₀ (by norm_num)).1 hlt
  omega

/-- **What a ratio is rounded to**, in units of its last place. -/
theorem value_ofRatio (hnum : 0 < num) (hden : 0 < den) : (ofRatio num den).value =
    roundHalfEven (scaled num den (quantum num den)).1 (scaled num den (quantum num den)).2 *
      2 ^ quantum num den := by
  simp only [ofRatio, if_neg (not_or.2 ⟨Nat.ne_of_gt hnum, Nat.ne_of_gt hden⟩)]
  split
  case isFalse => rfl
  case isTrue h =>
    -- The significand passed 53 bits, so it is halved and the exponent is one more.
    rw [h, value, zpow_add_one₀ (by norm_num)]
    push_cast
    ring

@[simp] theorem value_zero : zero.value = 0 := by rw [value, zero, Nat.cast_zero, zero_mul]

/-- A rounded ratio is written with 53 bits. -/
def Normal (x : Binary64) : Prop :=
  4503599627370496 ≤ x.significand ∧ x.significand < 9007199254740992

theorem normal_ofRatio (hnum : 0 < num) (hden : 0 < den) : (ofRatio num den).Normal :=
  let ⟨hlow, hhigh, _⟩ := ofRatio_spec hnum hden
  ⟨hlow, hhigh⟩

theorem Normal.bounds (h : x.Normal) :
    2 ^ (x.exponent + 52) ≤ x.value ∧ x.value < 2 ^ (x.exponent + 53) := by
  have hscale : (0 : ℚ) < 2 ^ x.exponent := by positivity
  have hlow : (2 : ℚ) ^ (52 : ℤ) ≤ x.significand := by
    norm_num
    exact_mod_cast h.1
  have hhigh : (x.significand : ℚ) < 2 ^ (53 : ℤ) := by
    norm_num
    exact_mod_cast h.2
  rw [zpow_add₀ (by norm_num), zpow_add₀ (by norm_num), value, mul_comm (x.significand : ℚ)]
  exact ⟨mul_le_mul_of_nonneg_left hlow hscale.le, mul_lt_mul_of_pos_left hhigh hscale⟩

theorem value_nonneg (x : Binary64) : 0 ≤ x.value := by
  rw [value]
  positivity

/-! ## The order of numbers -/

theorem compare_eq_lt_iff : x.compare y = .lt ↔
    x.exponent < y.exponent ∨ x.exponent = y.exponent ∧ x.significand < y.significand := by
  rw [compare, Ordering.then_eq_lt, Int.compare_eq_lt, Int.compare_eq_eq, Nat.compare_eq_lt]

@[simp] theorem compare_self (x : Binary64) : x.compare x = .eq := Std.ReflCmp.compare_self

/-- Numbers that compare equal are equal. -/
theorem eq_of_compare (h : x.compare y = .eq) : x = y := by
  rw [compare, Ordering.then_eq_eq, Int.compare_eq_eq, Nat.compare_eq_eq] at h
  obtain ⟨s, e⟩ := x
  obtain ⟨s', e'⟩ := y
  obtain ⟨rfl, rfl⟩ := h
  rfl

/-- **The order of numbers is that of their values.** -/
theorem value_lt_of_compare (hx : x.Normal) (hy : y.Normal) (h : x.compare y = .lt) :
    x.value < y.value := by
  obtain hlt | ⟨heq, hlt⟩ := compare_eq_lt_iff.1 h
  · calc x.value < 2 ^ (x.exponent + 53) := hx.bounds.2
      _ ≤ 2 ^ (y.exponent + 52) := zpow_le_zpow_right₀ (by norm_num) (by omega)
      _ ≤ y.value := hy.bounds.1
  · rw [value, value, heq]
    exact mul_lt_mul_of_pos_right (Nat.cast_lt.2 hlt) (by positivity)

/-! ## Rounding a ratio -/

/-- A rounded ratio stays between the powers of two around the ratio. -/
theorem value_ofRatio_bounds (hnum : 0 < num) (hden : 0 < den) :
    2 ^ (quantum num den + 52) ≤ (ofRatio num den).value ∧
      (ofRatio num den).value ≤ 2 ^ (quantum num den + 53) := by
  obtain ⟨hlow, hhigh⟩ := (normal_ofRatio hnum hden).bounds
  obtain ⟨_, _, hexp | ⟨hexp, hsig⟩⟩ := ofRatio_spec hnum hden
  · rw [hexp] at hlow hhigh
    exact ⟨hlow, hhigh.le⟩
  · have hvalue : (ofRatio num den).value = 2 ^ (quantum num den + 53) := by
      rw [value, hexp, hsig, zpow_add₀ (by norm_num), zpow_add₀ (by norm_num)]
      norm_num
      ring
    rw [hvalue]
    exact ⟨zpow_le_zpow_right₀ (by norm_num) (by omega), le_rfl⟩

section Compared

variable (hnum : 0 < num) (hden : 0 < den) (hnum' : 0 < num') (hden' : 0 < den')
  (h : (num / den : ℚ) ≤ num' / den')
include hnum hden hnum' hden' h

/-- A greater ratio has no smaller unit. -/
theorem quantum_le : quantum num den ≤ quantum num' den' := by
  have hlt := (quantum_spec_rat hnum hden).1.trans_lt (h.trans_lt (quantum_spec_rat hnum' hden').2)
  have := (zpow_lt_zpow_iff_right₀ (by norm_num)).1 hlt
  omega

/-- **A greater ratio is not rounded to less.** -/
theorem value_ofRatio_le : (ofRatio num den).value ≤ (ofRatio num' den').value := by
  obtain hlt | heq := (quantum_le hnum hden hnum' hden' h).lt_or_eq
  · calc (ofRatio num den).value ≤ 2 ^ (quantum num den + 53) := (value_ofRatio_bounds hnum hden).2
      _ ≤ 2 ^ (quantum num' den' + 52) := zpow_le_zpow_right₀ (by norm_num) (by omega)
      _ ≤ (ofRatio num' den').value := (value_ofRatio_bounds hnum' hden').1
  · rw [value_ofRatio hnum hden, value_ofRatio hnum' hden', ← heq]
    have hpos : 0 < (scaled num den (quantum num den)).2 := scaled_snd_pos hden _
    have hpos' : 0 < (scaled num' den' (quantum num den)).2 := scaled_snd_pos hden' _
    have hscaled : ((scaled num den (quantum num den)).1 : ℚ) / (scaled num den (quantum num den)).2 ≤
        (scaled num' den' (quantum num den)).1 / (scaled num' den' (quantum num den)).2 := by
      rw [scaled_div, scaled_div]
      gcongr
    rw [div_le_div_iff₀ (Nat.cast_pos.2 hpos) (Nat.cast_pos.2 hpos')] at hscaled
    have hround := roundHalfEven_mono hpos hpos' (by exact_mod_cast hscaled)
    gcongr

end Compared

/-- **A ratio is rounded by at most half a unit** of its last place. -/
theorem abs_value_ofRatio_sub_le (hnum : 0 < num) (hden : 0 < den) :
    |(ofRatio num den).value - num / den| ≤ 2 ^ quantum num den / 2 := by
  have hscale : (0 : ℚ) < 2 ^ quantum num den := by positivity
  have hpos : 0 < (scaled num den (quantum num den)).2 := scaled_snd_pos hden _
  have hnear := abs_roundHalfEven_sub_le (n := (scaled num den (quantum num den)).1) hpos
  rw [scaled_div] at hnear
  have hsplit : (ofRatio num den).value - num / den = (roundHalfEven
      (scaled num den (quantum num den)).1 (scaled num den (quantum num den)).2 -
        num / den / 2 ^ quantum num den) * 2 ^ quantum num den := by
    rw [value_ofRatio hnum hden, sub_mul, div_mul_cancel₀ _ hscale.ne']
  rw [hsplit, abs_mul, abs_of_pos hscale]
  calc _ ≤ 1 / 2 * 2 ^ quantum num den := mul_le_mul_of_nonneg_right hnear hscale.le
    _ = 2 ^ quantum num den / 2 := by ring

/-! ## Quotients of natural numbers -/

theorem value_ofNat_pos (hn : 0 < n) : 0 < (ofNat n).value :=
  lt_of_lt_of_le (by positivity) (value_ofRatio_bounds hn Nat.one_pos).1

theorem value_ofNat_le (hn : 0 < n) (h : n ≤ m) : (ofNat n).value ≤ (ofNat m).value := by
  refine value_ofRatio_le hn Nat.one_pos (hn.trans_le h) Nat.one_pos ?_
  rw [Nat.cast_one, div_one, div_one]
  exact Nat.cast_le.2 h

/-- A natural number of at most 53 bits is kept. -/
theorem value_ofNat (h : n < 9007199254740992) : (ofNat n).value = n := by
  obtain rfl | hn := Nat.eq_zero_or_pos n
  · rw [ofNat, ofRatio_zero, value_zero, Nat.cast_zero]
  have hlog : n.log2 < 53 := lt_of_twoTo_lt ((twoTo_log2_le hn).trans_lt h)
  have hquantum : quantum n 1 ≤ n.log2 - 52 := (quantum_bounds n 1).2
  have hscale : (quantum n 1).toNat = 0 := by omega
  have hone : (scaled n 1 (quantum n 1)).2 = 1 := by simp only [scaled, hscale, twoTo_zero]
  have hdiv := scaled_div n 1 (quantum n 1)
  rw [hone, Nat.cast_one, div_one, div_one] at hdiv
  have hround : ∀ k, roundHalfEven k 1 = k := fun k => by simp [roundHalfEven, Nat.mod_one]
  rw [ofNat, value_ofRatio hn Nat.one_pos, hone, hround, hdiv, div_mul_cancel₀]
  positivity

/-- **A quotient is the rounded ratio of two rounded numbers.** -/
theorem exists_quotient_eq (hn : 0 < n) (hd : 0 < d) : ∃ num den, 0 < num ∧ 0 < den ∧
    quotient n d = ofRatio num den ∧ (num / den : ℚ) = (ofNat n).value / (ofNat d).value := by
  have hnv := toRatio_div (ofNat n)
  have hdv := toRatio_div (ofNat d)
  have hpos : ∀ {k}, 0 < k → 0 < (ofNat k).toRatio.1 ∧ 0 < (ofNat k).toRatio.2 := fun hk =>
    ⟨Nat.mul_pos (lt_of_lt_of_le (by decide) (normal_ofRatio hk Nat.one_pos).1) (twoTo_pos _),
      twoTo_pos _⟩
  refine ⟨_, _, Nat.mul_pos (hpos hn).1 (hpos hd).2, Nat.mul_pos (hpos hn).2 (hpos hd).1, rfl, ?_⟩
  rw [Nat.cast_mul, Nat.cast_mul, ← div_div_div_eq, hnv, hdv]

theorem normal_quotient (hn : 0 < n) (hd : 0 < d) : (quotient n d).Normal := by
  obtain ⟨num, den, hnum, hden, heq, _⟩ := exists_quotient_eq hn hd
  exact heq ▸ normal_ofRatio hnum hden

/-- **Quotients stand in the order of their numerators.** -/
theorem value_quotient_le (hd : 0 < d) (h : n ≤ m) :
    (quotient n d).value ≤ (quotient m d).value := by
  obtain rfl | hn := Nat.eq_zero_or_pos n
  · rw [quotient_zero, value_zero]
    exact value_nonneg _
  obtain ⟨num, den, hnum, hden, heq, hratio⟩ := exists_quotient_eq hn hd
  obtain ⟨num', den', hnum', hden', heq', hratio'⟩ := exists_quotient_eq (hn.trans_le h) hd
  rw [heq, heq']
  refine value_ofRatio_le hnum hden hnum' hden' ?_
  rw [hratio, hratio']
  exact div_le_div_of_nonneg_right (value_ofNat_le hn h) (value_ofNat_pos hd).le

/-- **Below `2 ^ 53` no two quotients fall together**: their ratios are more than a unit apart. -/
theorem value_quotient_lt (hd : d < 9007199254740992) (h : n < m) (hm : m < d) :
    (quotient n d).value < (quotient m d).value := by
  have hdpos : 0 < d := Nat.zero_lt_of_lt hm
  have hmpos : 0 < m := Nat.zero_lt_of_lt h
  obtain rfl | hn := Nat.eq_zero_or_pos n
  · rw [quotient_zero, value_zero]
    exact lt_of_lt_of_le (by positivity) (normal_quotient hmpos hdpos).bounds.1
  obtain ⟨num, den, hnum, hden, heq, hratio⟩ := exists_quotient_eq hn hdpos
  obtain ⟨num', den', hnum', hden', heq', hratio'⟩ := exists_quotient_eq hmpos hdpos
  rw [value_ofNat (h.trans (hm.trans hd)), value_ofNat hd] at hratio
  rw [value_ofNat (hm.trans hd), value_ofNat hd] at hratio'
  have hd' : (0 : ℚ) < d := Nat.cast_pos.2 hdpos
  have hgap : (n / d : ℚ) + 1 / d ≤ m / d := by
    rw [← add_div]
    exact div_le_div_of_nonneg_right (by exact_mod_cast h) hd'.le
  have hunit : (2 : ℚ) ^ quantum num' den' < 1 / d := by
    have hone : (num' / den' : ℚ) < 1 := by
      rw [hratio', div_lt_one hd']
      exact Nat.cast_lt.2 hm
    calc (2 : ℚ) ^ quantum num' den' ≤ 2 ^ (-53 : ℤ) :=
          zpow_le_zpow_right₀ (by norm_num) (quantum_le_of_lt_one hnum' hden' hone)
      _ = 1 / 9007199254740992 := by norm_num
      _ < 1 / d := one_div_lt_one_div_of_lt hd' (by exact_mod_cast hd)
  have hle : (2 : ℚ) ^ quantum num den ≤ 2 ^ quantum num' den' := by
    refine zpow_le_zpow_right₀ (by norm_num) (quantum_le hnum hden hnum' hden' ?_)
    rw [hratio, hratio']
    linarith [one_div_pos.2 hd']
  have hbelow := (abs_le.1 (abs_value_ofRatio_sub_le hnum hden)).2
  have habove := (abs_le.1 (abs_value_ofRatio_sub_le hnum' hden')).1
  rw [hratio] at hbelow
  rw [hratio'] at habove
  rw [heq, heq']
  linarith

end Binary64

end CatalogStats
