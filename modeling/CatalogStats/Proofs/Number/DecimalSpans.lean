import CatalogStats.Proofs.Number.DecimalSteps
import Mathlib.Algebra.Order.Field.Basic
import Mathlib.Data.Set.Card
import Mathlib.Data.Int.Interval
import Mathlib.Tactic.Linarith
import Mathlib.Tactic.Ring

/-!
# Proofs/Number/DecimalSpans — when a span counts the numbers between two decimals

The numbers with the digits of a scale stand on a grid, and the span of two decimals is to count the
points of the grid from one to the other (`CountsBetween`).  It is taken from the mantissas.  Where
both decimals have all digits of the scale, their mantissas are the places on the grid.  A decimal
that is too large for all digits has a mantissa in coarser units, and then the span counts something
else, unless the two decimals are the same or the mantissas happen to lie as far apart as the places,
the other way round (`countsBetween_iff`).
-/

namespace CatalogStats.Decimal

variable {a b : Decimal} {scale : Scale} {n p q t u : ℕ}

/-! ## The grid of a scale -/

/-- The number that a decimal stands for. -/
def toRat (d : Decimal) : ℚ := d.signed / tenTo d.scale

/-- **The numbers with `scale` fractional digits** from one decimal to another, both included and in
either order.  A number stands here for its multiple of `10 ^ -scale`. -/
def gridBetween (scale : Scale) (a b : Decimal) : Set ℤ :=
  {i | (i : ℚ) / tenTo scale ∈ Set.uIcc a.toRat b.toRat}

/-- **A span that counts**: it is the distance of two numbers in units of the last digit and one more,
which is how many numbers with these digits there are from one to the other. -/
structure CountsBetween (scale : Scale) (a b : Decimal) : Prop where
  distance : ((Domain.decimal scale).span a b : ℚ) = |a.toRat - b.toRat| * tenTo scale + 1
  points : (Domain.decimal scale).span a b = (gridBetween scale a b).ncard

/-- The number of digits that a decimal lacks of a scale. -/
def lacking (scale : Scale) (d : Decimal) : ℕ := scale - d.scale

/-- The place of a decimal on the grid: its mantissa with the digits appended that it lacks. -/
def gridIndex (scale : Scale) (d : Decimal) : ℤ := d.signed * tenTo (lacking scale d)

theorem toRat_eq (h : a.scale ≤ scale) : a.toRat = gridIndex scale a / tenTo scale := by
  have hscale : tenTo scale = tenTo (lacking scale a) * tenTo a.scale := by
    rw [lacking, ← tenTo_add, Nat.sub_add_cancel h]
  have hpos : (0 : ℚ) < tenTo (lacking scale a) := Nat.cast_pos.2 (tenTo_pos _)
  rw [toRat, gridIndex, hscale, Int.cast_mul, Int.cast_natCast, Nat.cast_mul,
    mul_comm (a.signed : ℚ), mul_div_mul_left _ _ hpos.ne']

/-- The numbers between two decimals are those between their places. -/
theorem gridBetween_eq (ha : a.scale ≤ scale) (hb : b.scale ≤ scale) :
    gridBetween scale a b = Set.uIcc (gridIndex scale a) (gridIndex scale b) := by
  have hpos : (0 : ℚ) < tenTo scale := Nat.cast_pos.2 (tenTo_pos _)
  ext i
  rw [gridBetween, Set.mem_ofPred_eq, toRat_eq ha, toRat_eq hb, Set.mem_uIcc, Set.mem_uIcc]
  simp only [div_le_div_iff_of_pos_right hpos, Int.cast_le]

theorem ncard_gridBetween (ha : a.scale ≤ scale) (hb : b.scale ≤ scale) :
    (gridBetween scale a b).ncard = (gridIndex scale a - gridIndex scale b).natAbs + 1 := by
  rw [gridBetween_eq ha hb, ← Finset.coe_uIcc, Set.ncard_coe_finset, Int.card_uIcc,
    ← Int.neg_sub, Int.natAbs_neg]

/-- The distance of two numbers is that of their places. -/
theorem abs_sub_mul_tenTo (ha : a.scale ≤ scale) (hb : b.scale ≤ scale) :
    |a.toRat - b.toRat| * tenTo scale = (gridIndex scale a - gridIndex scale b).natAbs := by
  have hpos : (0 : ℚ) < tenTo scale := Nat.cast_pos.2 (tenTo_pos _)
  rw [toRat_eq ha, toRat_eq hb, ← sub_div, abs_div, abs_of_pos hpos, div_mul_cancel₀ _ hpos.ne',
    Nat.cast_natAbs, Int.cast_abs, Int.cast_sub]

/-! ## Decimals as they are read -/

theorem Settled.scale_le (h : Settled scale a) : a.scale ≤ scale := by
  obtain heq | ⟨hlt, _⟩ := h
  · exact heq.le
  · exact hlt.le

/-- A decimal that lacks digits has a full mantissa. -/
theorem Settled.full (h : Settled scale a) (hne : a.scale ≠ scale) : limit ≤ a.mantissa * 10 :=
  (h.resolve_left hne).2

/-- The span of decimals as they are read is that of their mantissas. -/
theorem span_of_settled (ha : Settled scale a) (hb : Settled scale b) :
    (Domain.decimal scale).span a b = (a.signed - b.signed).natAbs + 1 := by
  change span scale a b = _
  rw [span, ha.atScale_eq, hb.atScale_eq]

/-- **A span counts** if the mantissas lie as far apart as the places on the grid. -/
theorem countsBetween_iff_natAbs (ha : Settled scale a) (hb : Settled scale b) :
    CountsBetween scale a b ↔
      (a.signed - b.signed).natAbs = (gridIndex scale a - gridIndex scale b).natAbs := by
  constructor
  · rintro ⟨_, hpoints⟩
    rw [span_of_settled ha hb, ncard_gridBetween ha.scale_le hb.scale_le] at hpoints
    exact Nat.succ.inj hpoints
  · intro h
    refine ⟨?_, ?_⟩
    · rw [span_of_settled ha hb, abs_sub_mul_tenTo ha.scale_le hb.scale_le, h, Nat.cast_succ]
    · rw [span_of_settled ha hb, ncard_gridBetween ha.scale_le hb.scale_le, h]

/-! ## Mantissas in different units

Two numbers that are equal, written with a full mantissa in coarse units and with another one in fine
units, cannot both be decimals: the finer mantissa would have a digit more than fits. -/

/-- A full mantissa in units ten times as large is beyond any other. -/
theorem mantissa_mul_lt (hfull : limit ≤ b.mantissa * 10) (ht : 0 < t) (h : u * 10 ≤ t) :
    a.mantissa * u < b.mantissa * t := by
  have hfit : a.mantissa < limit := a.mantissa_lt
  have hpos : 0 < b.mantissa := by
    have hlimit : 0 < limit := by decide
    omega
  rcases u.eq_zero_or_pos with rfl | hu
  · rw [Nat.mul_zero]
    exact Nat.mul_pos hpos ht
  · calc a.mantissa * u < limit * u := Nat.mul_lt_mul_of_pos_right hfit hu
      _ ≤ b.mantissa * 10 * u := Nat.mul_le_mul_right u hfull
      _ = b.mantissa * (u * 10) := by ring
      _ ≤ b.mantissa * t := Nat.mul_le_mul_left _ h

/-- **One number in units that grow with the digits it lacks** cannot lack many more digits in one
form than in another. -/
theorem Settled.lacking_le (hb : Settled scale b) (weight : ℕ → ℕ)
    (hweight : ∀ p q, p + n < q → 0 < weight q ∧ weight p * 10 ≤ weight q)
    (h : a.signed * weight (lacking scale a) = b.signed * weight (lacking scale b)) :
    lacking scale b ≤ lacking scale a + n := by
  refine Nat.not_lt.1 fun hlt => ?_
  obtain ⟨hpos, hle⟩ := hweight _ _ hlt
  have hne : b.scale ≠ scale := by
    intro heq
    have hzero : lacking scale b = 0 := Nat.sub_eq_zero_of_le heq.ge
    exact Nat.not_lt_zero _ (hzero ▸ hlt)
  have hmantissas := congrArg Int.natAbs h
  rw [natAbs_signed_mul, natAbs_signed_mul] at hmantissas
  exact (mantissa_mul_lt (hb.full hne) hpos hle).ne hmantissas

/-- …so where already one digit more makes the units ten times as large, it lacks the same number. -/
theorem Settled.lacking_eq (ha : Settled scale a) (hb : Settled scale b) (weight : ℕ → ℕ)
    (hweight : ∀ p q, p < q → 0 < weight q ∧ weight p * 10 ≤ weight q)
    (h : a.signed * weight (lacking scale a) = b.signed * weight (lacking scale b)) :
    lacking scale a = lacking scale b :=
  Nat.le_antisymm (ha.lacking_le (n := 0) weight hweight h.symm)
    (hb.lacking_le (n := 0) weight hweight h)

theorem tenTo_mul_ten_le (h : p < q) : tenTo p * 10 ≤ tenTo q :=
  Nat.pow_le_pow_right (Nat.succ_pos 9) h

theorem scale_eq_iff (ha : a.scale ≤ scale) (hb : b.scale ≤ scale) :
    a.scale = b.scale ↔ lacking scale a = lacking scale b := by
  rw [lacking, lacking]
  omega

theorem same_iff_units : (Domain.decimal scale).same a b = true ↔ a.units = b.units :=
  Domain.same_iff.trans Int.compare_eq_eq

/-- **Decimals that are read are the same** only with the same mantissa and the same scale. -/
theorem Settled.same_iff (ha : Settled scale a) (hb : Settled scale b) :
    (Domain.decimal scale).same a b = true ↔ a.signed = b.signed ∧ a.scale = b.scale := by
  have hunits : ∀ {d : Decimal}, d.scale ≤ scale →
      d.units = d.signed * tenTo (28 - scale + lacking scale d) := by
    intro d hd
    have hscale : (scale : ℕ) < 29 := scale.isLt
    rw [units, lacking, show 28 - (scale : ℕ) + (scale - d.scale) = 28 - d.scale by omega]
  rw [same_iff_units]
  constructor
  · intro h
    rw [hunits ha.scale_le, hunits hb.scale_le] at h
    have hlacking := ha.lacking_eq hb (fun p => tenTo (28 - scale + p))
      (fun p q hpq => ⟨tenTo_pos _, tenTo_mul_ten_le (by omega)⟩) h
    have hpos : (0 : ℤ) < tenTo (28 - scale + lacking scale b) := Int.natCast_pos.2 (tenTo_pos _)
    rw [hlacking] at h
    exact ⟨Int.eq_of_mul_eq_mul_right hpos.ne' h, (scale_eq_iff ha.scale_le hb.scale_le).2 hlacking⟩
  · rintro ⟨hsigned, hscale⟩
    rw [units, units, hsigned, hscale]

/-! ## Which spans count -/

/-- The mantissas lie as far apart as the places on the grid, the other way round. -/
def Mirrored (scale : Scale) (a b : Decimal) : Prop :=
  a.signed - b.signed = gridIndex scale b - gridIndex scale a

/-- Mantissas that lie like the places on the grid are those of decimals with all digits, or of the
same decimal. -/
theorem sub_eq_gridIndex_sub_iff (ha : Settled scale a) (hb : Settled scale b) :
    a.signed - b.signed = gridIndex scale a - gridIndex scale b ↔
      (a.scale = scale ∧ b.scale = scale) ∨ (Domain.decimal scale).same a b = true := by
  have hzero : ∀ {d : Decimal}, d.scale ≤ scale → (d.scale = scale ↔ lacking scale d = 0) := by
    intro d hd
    rw [lacking]
    omega
  have hweight : ∀ p, (tenTo p : ℤ) = (tenTo p - 1 : ℕ) + 1 := by
    intro p
    have hpos := tenTo_pos p
    omega
  rw [ha.same_iff hb]
  constructor
  · intro h
    have hmul : a.signed * (tenTo (lacking scale a) - 1 : ℕ) =
        b.signed * (tenTo (lacking scale b) - 1 : ℕ) := by
      rw [gridIndex, gridIndex, hweight, hweight (lacking scale b)] at h
      linarith
    have hlacking := ha.lacking_eq hb (fun p => tenTo p - 1) (fun p q hpq => by
      have hle := tenTo_mul_ten_le hpq
      have hpos := tenTo_pos p
      omega) hmul
    rw [hlacking] at hmul
    rcases (lacking scale b).eq_zero_or_pos with hb₀ | hpos
    · exact .inl ⟨(hzero ha.scale_le).2 (hlacking.trans hb₀), (hzero hb.scale_le).2 hb₀⟩
    · have hten : tenTo 0 * 10 ≤ tenTo (lacking scale b) := tenTo_mul_ten_le hpos
      have hne : ((tenTo (lacking scale b) - 1 : ℕ) : ℤ) ≠ 0 := by
        rw [tenTo_zero] at hten
        omega
      exact .inr ⟨Int.eq_of_mul_eq_mul_right hne hmul, (scale_eq_iff ha.scale_le hb.scale_le).2 hlacking⟩
  · rintro (⟨ha₀, hb₀⟩ | ⟨hsigned, hscale⟩)
    · rw [gridIndex, gridIndex, (hzero ha.scale_le).1 ha₀, (hzero hb.scale_le).1 hb₀, tenTo_zero,
        Int.ofNat_one, Int.mul_one, Int.mul_one]
    · rw [gridIndex, gridIndex, (scale_eq_iff ha.scale_le hb.scale_le).1 hscale, hsigned]
      omega

/-- Mirrored decimals are the same or lack numbers of digits that differ by one. -/
theorem same_or_lacking_of_mirrored (ha : Settled scale a) (hb : Settled scale b)
    (h : Mirrored scale a b) : (Domain.decimal scale).same a b = true ∨
      a.scale = b.scale + 1 ∨ b.scale = a.scale + 1 := by
  have hmul : a.signed * (tenTo (lacking scale a) + 1 : ℕ) =
      b.signed * (tenTo (lacking scale b) + 1 : ℕ) := by
    rw [Mirrored, gridIndex, gridIndex] at h
    push_cast
    linarith
  have hweight : ∀ p q, p + 1 < q → 0 < tenTo q + 1 ∧ (tenTo p + 1) * 10 ≤ tenTo q + 1 := by
    intro p q hpq
    have hlow : tenTo p * 10 = tenTo (p + 1) := (tenTo_succ p).symm
    have hhigh : tenTo (p + 1) * 10 ≤ tenTo q := tenTo_mul_ten_le hpq
    have hpos := tenTo_pos p
    omega
  have hba := hb.lacking_le (fun p => tenTo p + 1) hweight hmul
  have hab := ha.lacking_le (fun p => tenTo p + 1) hweight hmul.symm
  have hascale := ha.scale_le
  have hbscale := hb.scale_le
  by_cases hscale : a.scale = b.scale
  · have hpos : (0 : ℤ) < (tenTo (lacking scale b) + 1 : ℕ) := by omega
    rw [(scale_eq_iff hascale hbscale).1 hscale] at hmul
    exact .inl ((ha.same_iff hb).2 ⟨Int.eq_of_mul_eq_mul_right hpos.ne' hmul, hscale⟩)
  · rw [lacking, lacking] at hba hab
    omega

theorem natAbs_sub_eq_iff {i j k l : ℤ} :
    (i - j).natAbs = (k - l).natAbs ↔ i - j = k - l ∨ i - j = l - k := by
  omega

/-- **Which spans count.**  The span of two decimals that are read counts the numbers between them
just where both have all digits of the scale, where they are the same, or where their mantissas are
mirrored by chance, which takes numbers of digits that differ by one.  It is one where the mantissas
are equal, and then the decimals are the same just where their scales are.  Among decimals of one
scale a span does not shrink when its end moves away. -/
theorem countsBetween_iff {s s' : String} (ha : Literal.read (.decimal scale) s = .ok a)
    (hb : Literal.read (.decimal scale) s' = .ok b) :
    (CountsBetween scale a b ↔ (a.scale = scale ∧ b.scale = scale) ∨
      (Domain.decimal scale).same a b = true ∨ Mirrored scale a b) ∧
    (Mirrored scale a b → (Domain.decimal scale).same a b = true ∨
      a.scale = b.scale + 1 ∨ b.scale = a.scale + 1) ∧
    ((Domain.decimal scale).span a b = 1 ↔ a.signed = b.signed) ∧
    (a.signed = b.signed → ((Domain.decimal scale).same a b = true ↔ a.scale = b.scale)) ∧
    ∀ s'' c, Literal.read (.decimal scale) s'' = .ok c → a.scale = b.scale → b.scale = c.scale →
      (Domain.decimal scale).le a b = true → (Domain.decimal scale).le b c = true →
      (Domain.decimal scale).span a b ≤ (Domain.decimal scale).span a c := by
  have ha := settled_of_read ha
  have hb := settled_of_read hb
  refine ⟨?_, same_or_lacking_of_mirrored ha hb, ?_, fun hsigned => ?_, fun s'' c hc hab hbc => ?_⟩
  · rw [countsBetween_iff_natAbs ha hb, natAbs_sub_eq_iff, sub_eq_gridIndex_sub_iff ha hb, or_assoc]
    rfl
  · rw [span_of_settled ha hb]
    omega
  · rw [ha.same_iff hb, and_iff_right hsigned]
  · have hc := settled_of_read hc
    have hle : ∀ {d e : Decimal}, d.scale = e.scale →
        ((Domain.decimal scale).le d e = true ↔ d.signed ≤ e.signed) :=
      fun h => Int.isLE_compare.trans (units_le_iff h)
    rw [hle hab, hle hbc, span_of_settled ha hb, span_of_settled ha hc]
    omega

/-- Eleven amounts in cents lie from five cents below zero to five cents above it. -/
theorem countsBetween_cents : ∃ a b, Literal.read (.decimal 2) "-0.05" = .ok a ∧
    Literal.read (.decimal 2) "0.05" = .ok b ∧ CountsBetween 2 a b ∧
    (Domain.decimal 2).span a b = 11 := by
  have ha : Literal.read (.decimal 2) "-0.05" = .ok ⟨true, 5, 2, by decide, by decide⟩ := by
    decide +kernel
  have hb : Literal.read (.decimal 2) "0.05" = .ok ⟨false, 5, 2, by decide, by decide⟩ := by
    decide +kernel
  obtain ⟨hcounts, _⟩ := countsBetween_iff ha hb
  exact ⟨_, _, ha, hb, hcounts.2 (.inl ⟨rfl, rfl⟩), by decide⟩

/-- The greatest mantissa as a number of cents and as a whole number: the two are far apart, and the
span says that they are one value. -/
theorem not_countsBetween : ∃ a b,
    Literal.read (.decimal 2) "79228162514264337593543950335" = .ok a ∧
      Literal.read (.decimal 2) "792281625142643375935439503.35" = .ok b ∧
      (Domain.decimal 2).span a b = 1 ∧ (Domain.decimal 2).same a b = false ∧
      ¬ CountsBetween 2 a b := by
  have ha : Literal.read (.decimal 2) "79228162514264337593543950335" =
      .ok ⟨false, 79228162514264337593543950335, 0, by decide, by decide⟩ := by
    decide +kernel
  have hb : Literal.read (.decimal 2) "792281625142643375935439503.35" =
      .ok ⟨false, 79228162514264337593543950335, 2, by decide, by decide⟩ := by
    decide +kernel
  have hsettled := settled_of_read ha
  have hsettled' := settled_of_read hb
  refine ⟨_, _, ha, hb, ?_, by decide, fun h => ?_⟩
  · rw [span_of_settled hsettled hsettled']
    rfl
  · exact absurd ((countsBetween_iff_natAbs hsettled hsettled').1 h) (by decide)

end CatalogStats.Decimal
