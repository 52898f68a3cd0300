import CatalogStats.Number.Binary64
import Mathlib.Tactic.Linarith
import Mathlib.Tactic.Ring

/-!
# Proofs/Number/Binary64 — the size of a rounded ratio

The number of double precision nearest to a positive ratio has a significand of exactly 53 bits
(`ofRatio_spec`), because its exponent is chosen so that the scaled ratio lies between `2 ^ 52`
and `2 ^ 53` (`quantum_spec`).  So no number that is rounded passes the next power of two
(`floor_ofNat_le`), and no positive ratio of natural numbers is rounded to zero
(`zero_lt_quotient`).
-/

namespace CatalogStats

theorem twoTo_add (m n : ℕ) : twoTo (m + n) = twoTo m * twoTo n := Nat.pow_add 2 m n

theorem twoTo_mono {m n : ℕ} (h : m ≤ n) : twoTo m ≤ twoTo n := Nat.pow_le_pow_right (by decide) h

theorem lt_of_twoTo_lt {m n : ℕ} (h : twoTo m < twoTo n) : m < n :=
  (Nat.pow_lt_pow_iff_right (by decide)).1 h

theorem twoTo_log2_le {n : ℕ} (h : 0 < n) : twoTo n.log2 ≤ n := Nat.log2_self_le (Nat.ne_of_gt h)

theorem lt_twoTo_log2_succ (n : ℕ) : n < twoTo (n.log2 + 1) := Nat.lt_log2_self

theorem roundHalfEven_le (num den : ℕ) : roundHalfEven num den ≤ num / den + 1 := by
  simp only [roundHalfEven]
  split <;> omega

theorem le_roundHalfEven (num den : ℕ) : num / den ≤ roundHalfEven num den := by
  simp only [roundHalfEven]
  split <;> omega

namespace Binary64

variable {num den n d k : ℕ}

/-! ## The exponent -/

/-- A ratio scaled to a half of the unit is twice as large. -/
theorem scaled_pred (num den : ℕ) (e : Int) :
    (scaled num den (e - 1)).1 * (scaled num den e).2 =
      2 * ((scaled num den e).1 * (scaled num den (e - 1)).2) := by
  simp only [scaled]
  obtain h | h : 1 ≤ e ∨ e ≤ 0 := by omega
  · have h₁ : (-(e - 1)).toNat = 0 := by omega
    have h₂ : (-e).toNat = 0 := by omega
    have h₃ : e.toNat = (e - 1).toNat + 1 := by omega
    rw [h₁, h₂, h₃, twoTo_succ]
    ring
  · have h₁ : (-(e - 1)).toNat = (-e).toNat + 1 := by omega
    have h₂ : e.toNat = 0 := by omega
    have h₃ : (e - 1).toNat = 0 := by omega
    rw [h₁, h₂, h₃, twoTo_succ]
    ring

theorem scaled_snd_pos (hden : 0 < den) (e : Int) : 0 < (scaled num den e).2 :=
  Nat.mul_pos hden (twoTo_pos _)

/-- At the difference of the two lengths less 52, a ratio lies between `2 ^ 51` and `2 ^ 53`. -/
theorem scaled_bounds (hnum : 0 < num) (hden : 0 < den) :
    let s := scaled num den ((num.log2 : Int) - den.log2 - 52)
    s.2 * 2251799813685248 ≤ s.1 ∧ s.1 < s.2 * 9007199254740992 := by
  simp only [scaled]
  set e := (num.log2 : Int) - den.log2 - 52 with he
  have hexp : num.log2 + (-e).toNat = den.log2 + e.toNat + 52 := by omega
  constructor
  · calc den * twoTo e.toNat * 2251799813685248
        ≤ twoTo (den.log2 + 1) * twoTo e.toNat * twoTo 51 :=
          Nat.mul_le_mul_right _ (Nat.mul_le_mul_right _ (lt_twoTo_log2_succ den).le)
      _ = twoTo (num.log2 + (-e).toNat) := by
          rw [hexp, ← twoTo_add, ← twoTo_add]
          congr 1
          omega
      _ ≤ num * twoTo (-e).toNat := by
          rw [twoTo_add]
          exact Nat.mul_le_mul_right _ (twoTo_log2_le hnum)
  · calc num * twoTo (-e).toNat
        < twoTo (num.log2 + 1) * twoTo (-e).toNat :=
          Nat.mul_lt_mul_of_pos_right (lt_twoTo_log2_succ num) (twoTo_pos _)
      _ = twoTo den.log2 * twoTo e.toNat * twoTo 53 := by
          rw [← twoTo_add, ← twoTo_add, ← twoTo_add]
          congr 1
          omega
      _ ≤ den * twoTo e.toNat * 9007199254740992 :=
          Nat.mul_le_mul_right _ (Nat.mul_le_mul_right _ (twoTo_log2_le hden))

/-- **The exponent of a ratio**, up to one less than the difference of the two lengths. -/
theorem quantum_bounds (num den : ℕ) :
    (num.log2 : Int) - den.log2 - 53 ≤ quantum num den ∧
      quantum num den ≤ (num.log2 : Int) - den.log2 - 52 := by
  simp only [quantum]
  split <;> omega

/-- **The scaled ratio has a whole part of 53 bits.** -/
theorem quantum_spec (hnum : 0 < num) (hden : 0 < den) :
    let s := scaled num den (quantum num den)
    s.2 * 4503599627370496 ≤ s.1 ∧ s.1 < s.2 * 9007199254740992 := by
  obtain ⟨hlow, hhigh⟩ := scaled_bounds hnum hden
  simp only [quantum]
  split
  case isFalse h => exact ⟨Nat.not_lt.1 h, hhigh⟩
  case isTrue h =>
    set e := (num.log2 : Int) - den.log2 - 52
    have hpred := scaled_pred num den e
    have hpos : 0 < (scaled num den e).2 := scaled_snd_pos hden e
    have hpos' : 0 < (scaled num den (e - 1)).2 := scaled_snd_pos hden (e - 1)
    constructor
    · refine Nat.le_of_mul_le_mul_right ?_ hpos
      rw [hpred]
      nlinarith
    · refine Nat.lt_of_mul_lt_mul_right (a := (scaled num den e).2) ?_
      rw [hpred]
      nlinarith

/-! ## The significand -/

/-- **What rounding gives**: a significand of 53 bits, at the exponent of the ratio or one more. -/
theorem ofRatio_spec (hnum : 0 < num) (hden : 0 < den) :
    let x := ofRatio num den
    4503599627370496 ≤ x.significand ∧ x.significand < 9007199254740992 ∧
      (x.exponent = quantum num den ∨
        x.exponent = quantum num den + 1 ∧ x.significand = 4503599627370496) := by
  obtain ⟨hlow, hhigh⟩ := quantum_spec hnum hden
  have hpos : 0 < (scaled num den (quantum num den)).2 := scaled_snd_pos hden _
  simp only [ofRatio, if_neg (not_or.2 ⟨Nat.ne_of_gt hnum, Nat.ne_of_gt hden⟩)]
  set s := scaled num den (quantum num den)
  have hle := le_roundHalfEven s.1 s.2
  have hge := roundHalfEven_le s.1 s.2
  have hdiv : 4503599627370496 ≤ s.1 / s.2 := (Nat.le_div_iff_mul_le hpos).2 (by linarith)
  have hdiv' : s.1 / s.2 < 9007199254740992 := (Nat.div_lt_iff_lt_mul hpos).2 (by linarith)
  split
  case isTrue =>
    dsimp only
    exact ⟨Nat.le_refl _, by omega, .inr ⟨rfl, rfl⟩⟩
  case isFalse h => exact ⟨hdiv.trans hle, by dsimp only; omega, .inl rfl⟩

/-- **A natural number is not rounded past a power of two.** -/
theorem floor_ofNat_le (hk : 53 ≤ k) (h : n < twoTo k) : (ofNat n).floor ≤ twoTo k := by
  obtain rfl | hn := Nat.eq_zero_or_pos n
  · rw [ofNat, ofRatio_zero, floor, toRatio, zero, Nat.zero_mul, Nat.zero_div]
    exact Nat.zero_le _
  obtain ⟨_, hlt, hexp⟩ := ofRatio_spec hn Nat.one_pos
  have hlog : n.log2 < k := lt_of_twoTo_lt ((twoTo_log2_le hn).trans_lt h)
  have hquantum : quantum n 1 ≤ n.log2 - 52 := (quantum_bounds n 1).2
  rw [ofNat, floor, toRatio]
  refine (Nat.div_le_self _ _).trans ?_
  set x := ofRatio n 1
  obtain hexp | ⟨hexp, hsig⟩ := hexp
  · calc x.significand * twoTo x.exponent.toNat
        ≤ twoTo 53 * twoTo (k - 53) :=
          Nat.mul_le_mul hlt.le (twoTo_mono (by omega))
      _ = twoTo k := by rw [← twoTo_add, Nat.add_sub_cancel' hk]
  · calc x.significand * twoTo x.exponent.toNat
        ≤ twoTo 52 * twoTo (k - 52) :=
          Nat.mul_le_mul hsig.le (twoTo_mono (by omega))
      _ = twoTo k := by rw [← twoTo_add, Nat.add_sub_cancel' (by omega)]

/-! ## The order -/

instance : Std.TransCmp compare :=
  inferInstanceAs (Std.TransCmp (compareLex (compareOn exponent) (compareOn significand)))

/-! ## Quotients -/

theorem toRatio_zero : toRatio zero = (0, twoTo 1074) := rfl

/-- Nothing divided by a number is zero. -/
@[simp] theorem quotient_zero (d : ℕ) : quotient 0 d = zero := by
  simp only [quotient, ofNat, ofRatio_zero, div, toRatio_zero, Nat.zero_mul]

/-- **No positive ratio is rounded to zero**, unless its denominator is enormous. -/
theorem zero_lt_ofRatio (hnum : 0 < num) (hden : 0 < den) (h : den < twoTo 200) :
    zero.compare (ofRatio num den) = .lt := by
  obtain ⟨_, _, hexp⟩ := ofRatio_spec hnum hden
  have hlog : den.log2 < 200 := lt_of_twoTo_lt ((twoTo_log2_le hden).trans_lt h)
  have hquantum := (quantum_bounds num den).1
  have hlt : zero.exponent < (ofRatio num den).exponent := by
    change -1074 < _
    obtain hexp | ⟨hexp, _⟩ := hexp <;> omega
  rw [compare, Int.compare_eq_lt.2 hlt]
  rfl

/-- The two parts of a rounded natural number of 128 bits. -/
theorem toRatio_ofNat (hn : 0 < n) (h : n < twoTo 128) :
    0 < (ofNat n).toRatio.1 ∧ (ofNat n).toRatio.1 ≤ twoTo 130 ∧
      0 < (ofNat n).toRatio.2 ∧ (ofNat n).toRatio.2 ≤ twoTo 53 := by
  obtain ⟨hlow, hlt, hexp⟩ := ofRatio_spec hn Nat.one_pos
  have hlog : n.log2 < 128 := lt_of_twoTo_lt ((twoTo_log2_le hn).trans_lt h)
  obtain ⟨hq, hq'⟩ := quantum_bounds n 1
  have hone : Nat.log2 1 = 0 := rfl
  rw [hone] at hq hq'
  have hupper : (ofRatio n 1).exponent ≤ 77 := by obtain hexp | ⟨hexp, _⟩ := hexp <;> omega
  have hlower : -53 ≤ (ofRatio n 1).exponent := by obtain hexp | ⟨hexp, _⟩ := hexp <;> omega
  rw [ofNat, toRatio]
  refine ⟨Nat.mul_pos (by omega) (twoTo_pos _), ?_, twoTo_pos _, twoTo_mono (by omega)⟩
  calc (ofRatio n 1).significand * twoTo (ofRatio n 1).exponent.toNat
      ≤ twoTo 53 * twoTo 77 := Nat.mul_le_mul hlt.le (twoTo_mono (by omega))
    _ = twoTo 130 := (twoTo_add 53 77).symm

/-- **A positive quotient of natural numbers of 128 bits is not rounded to zero.** -/
theorem zero_lt_quotient (hn : 0 < n) (hd : 0 < d) (hn' : n < twoTo 128) (hd' : d < twoTo 128) :
    zero.compare (quotient n d) = .lt := by
  obtain ⟨ha, _, hb, hb'⟩ := toRatio_ofNat hn hn'
  obtain ⟨hc, hc', he, _⟩ := toRatio_ofNat hd hd'
  refine zero_lt_ofRatio (Nat.mul_pos ha he) (Nat.mul_pos hb hc) ?_
  calc (ofNat n).toRatio.2 * (ofNat d).toRatio.1
      ≤ twoTo 53 * twoTo 130 := Nat.mul_le_mul hb' hc'
    _ = twoTo 183 := (twoTo_add 53 130).symm
    _ < twoTo 200 := Nat.pow_lt_pow_right (by decide) (by decide)

end Binary64

end CatalogStats
