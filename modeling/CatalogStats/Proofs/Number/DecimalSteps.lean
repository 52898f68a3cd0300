import CatalogStats.Catalog.Literal
import CatalogStats.Proofs.Domain.Steps
import CatalogStats.Proofs.Number.DecimalText

/-!
# Proofs/Number/DecimalSteps — which steps of a decimal are kept

A decimal that is read at a scale has that many fractional digits, or it is so large that it keeps as
many as fit (`Settled`).  A step adds one unit of the last digit of the scale.  On a value with all its
digits it is exact, until the mantissa is full: then it is reported where there are no fractional digits
to give up, and rounded where there are.  On a value with fewer digits the unit is rounded away, so
that the value follows itself (`stepped_stepBy`).
-/

namespace CatalogStats

/-- A quotient near a whole number is rounded to it. -/
theorem roundHalfEven_of_near {n d m : ℕ} (hd : 2 < d) (hm : 0 < m)
    (h : n = m * d + 1 ∨ n + 1 = m * d) : roundHalfEven n d = m := by
  simp only [roundHalfEven]
  obtain rfl | h := h
  · have hdiv : (m * d + 1) / d = m := Nat.div_eq_of_lt_le (by omega) (by rw [Nat.succ_mul]; omega)
    have hmod : (m * d + 1) % d = 1 := by
      rw [Nat.mul_comm, Nat.mul_add_mod, Nat.mod_eq_of_lt (by omega)]
    rw [hdiv, hmod, if_pos (.inl (by omega))]
  · obtain ⟨m, rfl⟩ := Nat.exists_eq_succ_of_ne_zero hm.ne'
    have hn : n = d * m + (d - 1) := by
      rw [Nat.succ_mul, Nat.mul_comm] at h
      omega
    have hdiv : n / d = m := by
      rw [hn, Nat.mul_add_div (by omega), Nat.div_eq_of_lt (by omega), Nat.add_zero]
    have hmod : n % d = d - 1 := by
      rw [hn, Nat.mul_add_mod, Nat.mod_eq_of_lt (by omega)]
    rw [hdiv, hmod, if_neg (by omega)]

/-- Nothing, or something that has a property. -/
theorem eq_none_or_exists_iff {α : Type} {x : Option α} {p : α → Prop} :
    (x = none ∨ ∃ c, x = some c ∧ p c) ↔ ∀ c, x = some c → p c := by
  cases x with
  | none => exact ⟨fun _ => nofun, fun _ => .inl rfl⟩
  | some c => simp

namespace Decimal

variable {a b u v : Decimal} {fuel k m n scale : ℕ}

/-! ## Reducing -/

theorem excessDigits_of_lt (h : n < limit) : excessDigits fuel n = 0 := by
  cases fuel with
  | zero => rfl
  | succ fuel => rw [excessDigits, if_pos h]

/-- **The digits that have to go** are as few as will do. -/
theorem excessDigits_eq (hfuel : k < fuel) (hlow : limit * tenTo k ≤ n)
    (hhigh : n < limit * tenTo (k + 1)) : excessDigits fuel n = k + 1 := by
  induction k generalizing fuel n with
  | zero =>
    obtain ⟨fuel, rfl⟩ := Nat.exists_eq_succ_of_ne_zero (Nat.ne_of_gt hfuel)
    rw [tenTo_zero, Nat.mul_one] at hlow
    rw [tenTo_succ, tenTo_zero, Nat.one_mul] at hhigh
    rw [excessDigits, if_neg (Nat.not_lt.2 hlow), excessDigits_of_lt (Nat.div_lt_of_lt_mul (by omega))]
  | succ k ih =>
    obtain ⟨fuel, rfl⟩ := Nat.exists_eq_succ_of_ne_zero (Nat.ne_zero_of_lt hfuel)
    have hle : limit ≤ limit * tenTo k := Nat.le_mul_of_pos_right _ (tenTo_pos k)
    rw [tenTo_succ, ← Nat.mul_assoc] at hlow hhigh
    rw [excessDigits, if_neg (by omega), ih (by omega) (by omega) (by omega)]

/-- **A number with `k + 1` digits too many** gives them up if they are fractional. -/
theorem reduce_eq (hk : k ≤ 28) (hlow : limit * tenTo k ≤ n) (hhigh : n < limit * tenTo (k + 1))
    (hround : roundHalfEven n (tenTo (k + 1)) = m) (hm : m < limit) :
    reduce n scale = if scale < k + 1 then none else some (m, scale - (k + 1)) := by
  have hle : limit ≤ limit * tenTo k := Nat.le_mul_of_pos_right _ (tenTo_pos k)
  have hlimit : 28 < limit := by decide
  have hexcess : excessDigits (n + 1) n = k + 1 := excessDigits_eq (by omega) hlow hhigh
  simp only [reduce, hexcess, hround, if_neg (Nat.succ_ne_zero k), if_pos hm]

/-- **A full mantissa with zeros appended**, give or take one, is reduced to that mantissa. -/
theorem reduce_of_near (hk : k ≤ 28) (hscale : k + 1 ≤ scale) (hm : m < limit)
    (hfull : limit ≤ m * 10) (hnear : n = m * tenTo (k + 1) + 1 ∨ n + 1 = m * tenTo (k + 1)) :
    reduce n scale = some (m, scale - (k + 1)) := by
  -- The limit is no multiple of ten, so a mantissa that is full is so by more than one.
  have hfull' : limit + 4 ≤ m * 10 := by
    change 79228162514264337593543950340 ≤ _
    change 79228162514264337593543950336 ≤ _ at hfull
    omega
  have hpos := tenTo_pos k
  have hten : tenTo (k + 1) = 10 * tenTo k := Nat.mul_comm _ _
  have hlow : limit * tenTo k + 4 * tenTo k ≤ m * tenTo (k + 1) := by
    rw [← Nat.add_mul, hten, ← Nat.mul_assoc]
    exact Nat.mul_le_mul_right _ hfull'
  have hhigh : m * tenTo (k + 1) + tenTo (k + 1) ≤ limit * tenTo (k + 1) := by
    rw [← Nat.succ_mul]
    exact Nat.mul_le_mul_right _ hm
  have hround := roundHalfEven_of_near (by omega) (by omega) hnear
  rw [reduce_eq hk (by omega) (by omega) hround hm, if_neg (by omega)]

/-! ## Adding a unit -/

/-- One unit of the last digit, of either sign. -/
structure IsStep (scale : ℕ) (u : Decimal) : Prop where
  scale_eq : u.scale = scale
  mantissa_eq : u.mantissa = 1

theorem isStep_step (scale : Scale) : IsStep scale (step scale) := ⟨rfl, rfl⟩

theorem isStep_neg_step (scale : Scale) : IsStep scale (step scale).neg := ⟨rfl, rfl⟩

theorem IsStep.natAbs_signed (hu : IsStep scale u) : u.signed.natAbs = 1 := by
  rw [Decimal.natAbs_signed, hu.mantissa_eq]

/-- The sum with a unit, where the other operand has no more digits. -/
theorem add?_eq (hu : IsStep scale u) (hv : v.mantissa ≠ 0) (hle : v.scale ≤ scale) :
    v.add? u = (reduce (v.signed * tenTo (scale - v.scale) + u.signed).natAbs scale).bind
      fun (m, s) => ofParts? (v.signed * tenTo (scale - v.scale) + u.signed < 0) m s := by
  have hone : u.mantissa ≠ 0 := by
    rw [hu.mantissa_eq]
    exact Nat.one_ne_zero
  rw [add?, if_neg hv, if_neg hone]
  simp only [hu.scale_eq, Nat.max_eq_right hle, Nat.sub_self, tenTo_zero, Int.ofNat_one, Int.mul_one]
  rfl

theorem signed_neg_iff (h : v.mantissa ≠ 0) : v.signed < 0 ↔ v.negative = true := by
  rw [signed]
  split
  case isTrue hneg =>
    rw [hneg, eq_self, iff_true]
    omega
  case isFalse hneg =>
    rw [iff_false_right hneg]
    omega

theorem natAbs_signed_mul (v : Decimal) (t : ℕ) : (v.signed * t).natAbs = v.mantissa * t := by
  rw [Int.natAbs_mul, natAbs_signed, Int.natAbs_natCast]

/-- A unit does not change the sign of a mantissa with zeros appended. -/
theorem decide_add_neg (hu : IsStep scale u) (hv : v.mantissa ≠ 0) {t : ℕ} (ht : 1 < t) :
    decide (v.signed * t + u.signed < 0) = v.negative := by
  have hone := hu.natAbs_signed
  have hpos : (0 : ℤ) < t := by omega
  have hsize := v.natAbs_signed_mul t
  have hlarge : t ≤ v.mantissa * t := Nat.le_mul_of_pos_left t (Nat.pos_of_ne_zero hv)
  have hsign : v.signed * (t : ℤ) < 0 ↔ v.signed < 0 :=
    ⟨fun h => Int.not_le.1 fun hle => Int.not_le.2 h (Int.mul_nonneg hle (Int.le_of_lt hpos)),
      fun h => Int.mul_neg_of_neg_of_pos h hpos⟩
  rw [Bool.eq_iff_iff, decide_eq_true_eq, ← signed_neg_iff hv, ← hsign]
  omega

/-- **A value without the last digits swallows the unit.** -/
theorem add?_of_lt (hu : IsStep scale u) (hscale : scale ≤ 28) (hlt : v.scale < scale)
    (hfull : limit ≤ v.mantissa * 10) : v.add? u = some v := by
  obtain ⟨k, hk⟩ : ∃ k, scale - v.scale = k + 1 := ⟨scale - v.scale - 1, by omega⟩
  have hne : v.mantissa ≠ 0 := by
    intro hzero
    rw [hzero] at hfull
    exact absurd hfull (by decide)
  have hone := hu.natAbs_signed
  have hten : tenTo (k + 1) = tenTo k * 10 := rfl
  have hpos := tenTo_pos k
  have hlarge : tenTo (k + 1) ≤ v.mantissa * tenTo (k + 1) :=
    Nat.le_mul_of_pos_left _ (Nat.pos_of_ne_zero hne)
  have hsize := v.natAbs_signed_mul (tenTo (k + 1))
  have hnear : (v.signed * (tenTo (k + 1) : ℤ) + u.signed).natAbs = v.mantissa * tenTo (k + 1) + 1 ∨
      (v.signed * (tenTo (k + 1) : ℤ) + u.signed).natAbs + 1 = v.mantissa * tenTo (k + 1) := by
    omega
  rw [add?_eq hu hne hlt.le, hk, decide_add_neg hu hne (by omega),
    reduce_of_near (by omega) (by omega) v.mantissa_lt hfull hnear, Option.bind_some, ← hk,
    Nat.sub_sub_self hlt.le]
  exact dif_pos ⟨v.mantissa_lt, v.scale_le⟩

/-- What is left of a full mantissa when its last digit is given up. -/
abbrev tenth : ℕ := 7922816251426433759354395034

/-- **A full mantissa gives up a digit**, if it has a fractional one. -/
theorem add?_of_full (hu : IsStep scale u) (hv : v.scale = scale)
    (hfull : (v.signed + u.signed).natAbs = limit) : v.add? u = if scale = 0 then none else
      ofParts? (v.signed + u.signed < 0) tenth (scale - 1) := by
  have hne : v.mantissa ≠ 0 := by
    have hone := hu.natAbs_signed
    have hsize := v.natAbs_signed
    have hlimit : 1 < limit := by decide
    omega
  have hreduce : reduce limit scale = if scale < 1 then none else some (tenth, scale - 1) :=
    reduce_eq (k := 0) (by decide) (by decide) (by decide) (by decide) (by decide)
  rw [add?_eq hu hne hv.le, hv, Nat.sub_self, tenTo_zero, Int.ofNat_one, Int.mul_one, hfull, hreduce]
  by_cases hzero : scale = 0
  · rw [if_pos hzero, if_pos (by omega), Option.bind_none]
  · rw [if_neg hzero, if_neg (by omega), Option.bind_some]

/-- …and is rounded to five units instead of one. -/
theorem tenth_mul (hu : IsStep scale u) (hfull : (v.signed + u.signed).natAbs = limit) :
    (if v.signed + u.signed < 0 then -(tenth : ℤ) else tenth) * 10 = v.signed + 5 * u.signed := by
  have hone := hu.natAbs_signed
  have hsize := v.natAbs_signed
  have hfit := v.mantissa_lt
  change _ = 79228162514264337593543950336 at hfull
  change (if _ then (-7922816251426433759354395034 : ℤ) else 7922816251426433759354395034) * 10 = _
  split <;> omega

/-! ## The outcome of a step -/

/-- A value after a step by a unit. -/
def stepBy (scale : Scale) (u v : Decimal) : Option Decimal :=
  ((v.atScale scale).add? u).map (atScale scale)

/-- **What becomes of a step.**  It is exact, it is reported to leave the domain, it is rounded because
the mantissa is full, or it is lost because the value does not have the last digits. -/
inductive Stepped (scale : ℕ) (u v : Decimal) : Option Decimal → Prop
  | exact {c : Decimal} (hv : v.scale = scale) (hfit : (v.signed + u.signed).natAbs < limit)
      (hc : c.units = v.units + u.units) : Stepped scale u v (some c)
  | reported (hv : v.scale = scale) (hfull : (v.signed + u.signed).natAbs = limit)
      (hscale : scale = 0) : Stepped scale u v none
  | rounded {c : Decimal} (hv : v.scale = scale) (hfull : (v.signed + u.signed).natAbs = limit)
      (hscale : scale ≠ 0) (hc : c.units = v.units + 5 * u.units) : Stepped scale u v (some c)
  | lost (hv : v.scale < scale) : Stepped scale u v (some v)

theorem IsStep.units_add (hu : IsStep scale u) (hv : v.scale = scale) (n : ℤ) :
    v.units + n * u.units = (v.signed + n * u.signed) * tenTo (28 - scale) := by
  rw [units, units, hu.scale_eq, hv, Int.add_mul, Int.mul_assoc]

/-- A step from a full mantissa is reported or rounded. -/
theorem stepped_of_full {scale : Scale} (hu : IsStep scale u) (hv : v.scale = scale)
    (hfull : (v.signed + u.signed).natAbs = limit) :
    Stepped scale u v (stepBy scale u v) := by
  rw [stepBy, atScale_self hv, add?_of_full hu hv hfull]
  by_cases hzero : (scale : ℕ) = 0
  · rw [if_pos hzero]
    exact .reported hv hfull hzero
  let c : Decimal := ⟨v.signed + u.signed < 0, tenth, scale - 1, by decide, by omega⟩
  have hparts : ofParts? (v.signed + u.signed < 0) tenth (scale - 1) = some c :=
    dif_pos ⟨by decide, c.scale_le⟩
  have hsettled : Settled scale c := .inr ⟨by dsimp only [c]; omega, by dsimp only [c]; decide⟩
  have hsigned : c.signed * 10 = v.signed + 5 * u.signed := by
    rw [← tenth_mul hu hfull, signed]
    simp only [c, decide_eq_true_eq]
  have hten : 28 - ((scale : ℕ) - 1) = 28 - scale + 1 := by omega
  rw [if_neg hzero, hparts, Option.map_some, hsettled.atScale_eq]
  refine .rounded hv hfull hzero ?_
  rw [hu.units_add hv, ← hsigned, units, hten, tenTo_succ, Int.natCast_mul, Int.mul_assoc,
    Int.mul_comm 10]
  rfl

/-- **A value without the last digits stays where it is.** -/
theorem stepBy_of_lt {scale : Scale} (hu : IsStep scale u) (hlt : v.scale < scale)
    (hfull : limit ≤ v.mantissa * 10) : stepBy scale u v = some v := by
  have hsettled : Settled scale v := .inr ⟨hlt, hfull⟩
  rw [stepBy, hsettled.atScale_eq, add?_of_lt hu (Nat.le_of_lt_succ scale.isLt) hlt hfull,
    Option.map_some, hsettled.atScale_eq]

/-- **The outcome of a step** from a value as it is read. -/
theorem stepped_stepBy {scale : Scale} (hu : IsStep scale u) (hv : Settled scale v) :
    Stepped scale u v (stepBy scale u v) := by
  obtain hv | ⟨hlt, hfull⟩ := hv
  · have hle : (v.signed + u.signed).natAbs ≤ limit := by
      have hone := hu.natAbs_signed
      have hsize := v.natAbs_signed
      have hfit : v.mantissa < limit := v.mantissa_lt
      omega
    obtain hfit | hfull := hle.lt_or_eq
    · obtain ⟨c, hc, hcs, hsum⟩ := exists_step hv hu.scale_eq hfit
      rw [stepBy, hc]
      refine .exact hv hfit ?_
      have hunits := hu.units_add hv 1
      rw [Int.one_mul, Int.one_mul] at hunits
      rw [hunits, units, hcs, hsum]
    · exact stepped_of_full hu hv hfull
  · rw [stepBy_of_lt hu hlt hfull]
    exact .lost hlt

theorem IsStep.units_ne_zero (hu : IsStep scale u) : u.units ≠ 0 := by
  have hone := hu.natAbs_signed
  have hpos : (0 : ℤ) < tenTo (28 - u.scale) := Int.natCast_pos.2 (tenTo_pos _)
  exact Int.mul_ne_zero (by omega) (Int.ne_of_gt hpos)

/-- **A step is reported or exact** just where the value has all its digits and the mantissa is not
filled up with fractional ones. -/
theorem stepBy_kept_iff {scale : Scale} (hu : IsStep scale u) (hv : Settled scale v) :
    (∀ c, stepBy scale u v = some c → c.units = v.units + u.units) ↔
      v.scale = scale ∧ ((v.signed + u.signed).natAbs = limit → (scale : ℕ) = 0) := by
  have hne := hu.units_ne_zero
  have hstep := stepped_stepBy hu hv
  generalize stepBy scale u v = result at hstep
  cases hstep with
  | exact hv hfit hc =>
    exact ⟨fun _ => ⟨hv, fun hfull => absurd hfull hfit.ne⟩, fun _ d hd => Option.some.inj hd ▸ hc⟩
  | reported hv hfull hscale => exact ⟨fun _ => ⟨hv, fun _ => hscale⟩, nofun⟩
  | rounded hv hfull hscale hc =>
    refine ⟨fun hkept => ?_, fun ⟨_, hzero⟩ => absurd (hzero hfull) hscale⟩
    have := hkept _ rfl
    omega
  | lost hlt =>
    refine ⟨fun hkept => ?_, fun ⟨hv, _⟩ => absurd hv hlt.ne⟩
    have := hkept _ rfl
    omega

/-! ## Steps from values that are read -/

/-- The step up is reported, or it leads to the greater value that is one unit of the scale away. -/
def KeepsNext (scale : Scale) (v : Decimal) : Prop :=
  (Domain.decimal scale).next v = .error (.noNext v) ∨
    ∃ c, (Domain.decimal scale).next v = .ok c ∧ (Domain.decimal scale).lt v c = true ∧
      c.units = v.units + tenTo (28 - scale)

/-- The step down is reported, or it leads to the smaller value that is one unit of the scale away. -/
def KeepsPrevious (scale : Scale) (v : Decimal) : Prop :=
  (Domain.decimal scale).previous v = .error (.noPrevious v) ∨
    ∃ c, (Domain.decimal scale).previous v = .ok c ∧ (Domain.decimal scale).lt c v = true ∧
      c.units = v.units - tenTo (28 - scale)

theorem domain_lt {scale : Scale} : (Domain.decimal scale).lt a b = true ↔ a.units < b.units :=
  Domain.lt_iff.trans Int.compare_eq_lt

theorem units_step (scale : Scale) : (step scale).units = tenTo (28 - scale) := Int.one_mul _

theorem units_neg (d : Decimal) : d.neg.units = -d.units := by
  have hsigned : d.neg.signed = -d.signed := by
    rw [signed, signed, neg]
    cases d.negative with
    | true => exact (Int.neg_neg _).symm
    | false => rfl
  rw [units, hsigned, Int.neg_mul, units, neg]

theorem next?_eq (scale : Scale) (v : Decimal) :
    (Domain.decimal scale).next? v = stepBy scale (step scale) v := rfl

theorem previous?_eq (scale : Scale) (v : Decimal) :
    (Domain.decimal scale).previous? v = stepBy scale (step scale).neg v := rfl

theorem keepsNext_iff {scale : Scale} : KeepsNext scale v ↔
    ∀ c, stepBy scale (step scale) v = some c → c.units = v.units + (step scale).units := by
  have hpos : (0 : ℤ) < tenTo (28 - scale) := Int.natCast_pos.2 (tenTo_pos _)
  simp only [KeepsNext, Domain.next_eq_error_iff, Domain.next_eq_ok_iff, eq_none_or_exists_iff,
    next?_eq, domain_lt, units_step]
  exact forall₂_congr fun c _ => ⟨And.right, fun hunits => ⟨by omega, hunits⟩⟩

theorem keepsPrevious_iff {scale : Scale} : KeepsPrevious scale v ↔
    ∀ c, stepBy scale (step scale).neg v = some c → c.units = v.units + (step scale).neg.units := by
  have hpos : (0 : ℤ) < tenTo (28 - scale) := Int.natCast_pos.2 (tenTo_pos _)
  simp only [KeepsPrevious, Domain.previous_eq_error_iff, Domain.previous_eq_ok_iff,
    eq_none_or_exists_iff, previous?_eq, domain_lt, units_neg, units_step, ← Int.sub_eq_add_neg]
  exact forall₂_congr fun c _ => ⟨And.right, fun hunits => ⟨by omega, hunits⟩⟩

/-- A decimal that is read has the digits of the scale, or as many as fit. -/
theorem settled_of_read {scale : Scale} {text : String}
    (hv : Literal.read (.decimal scale) text = .ok v) : Settled scale v := by
  have hread : Literal.readDecimal scale (Literal.bare text.toList) = .ok v := by
    rw [Literal.read] at hv
    split at hv
    case h_1 w hw => exact Except.ok.inj hv ▸ hw
    case h_2 => cases hv
  rw [Literal.readDecimal] at hread
  split at hread
  case h_1 d _ => exact Except.ok.inj hread ▸ settled_atScale (Nat.le_of_lt_succ scale.isLt) d
  case h_2 => cases hread

/-- **Which steps are kept.**  From a decimal that is read, the step up is reported or exact just where
the value has all digits of the scale and, unless the scale is zero, is not the greatest that has them;
the step down just where it is not the least.  A value without all digits is its own successor and its
own predecessor. -/
theorem keeps_iff {scale : Scale} {text : String}
    (hv : Literal.read (.decimal scale) text = .ok v) :
    (KeepsNext scale v ↔ v.scale = scale ∧ (v.signed = limit - 1 → (scale : ℕ) = 0)) ∧
    (KeepsPrevious scale v ↔ v.scale = scale ∧ (v.signed = 1 - limit → (scale : ℕ) = 0)) ∧
    (v.scale ≠ scale → (Domain.decimal scale).next v = .ok v ∧
      (Domain.decimal scale).previous v = .ok v) := by
  have hsettled := settled_of_read hv
  have hsize := v.natAbs_signed
  have hfit : v.mantissa < limit := v.mantissa_lt
  have hup : (v.signed + (step scale).signed).natAbs = limit ↔ v.signed = limit - 1 := by
    change (v.signed + 1).natAbs = _ ↔ _
    omega
  have hdown : (v.signed + (step scale).neg.signed).natAbs = limit ↔ v.signed = 1 - limit := by
    change (v.signed + -1).natAbs = _ ↔ _
    omega
  refine ⟨?_, ?_, fun hne => ?_⟩
  · rw [keepsNext_iff, stepBy_kept_iff (isStep_step scale) hsettled, hup]
  · rw [keepsPrevious_iff, stepBy_kept_iff (isStep_neg_step scale) hsettled, hdown]
  · obtain ⟨hlt, hfull⟩ := hsettled.resolve_left hne
    rw [Domain.next_eq_ok_iff, Domain.previous_eq_ok_iff, next?_eq, previous?_eq]
    exact ⟨stepBy_of_lt (isStep_step scale) hlt hfull, stepBy_of_lt (isStep_neg_step scale) hlt hfull⟩

/-- An amount in cents takes both steps. -/
theorem keeps_cents : ∃ v, Literal.read (.decimal 2) "12.34" = .ok v ∧
    v = ⟨false, 1234, 2, by decide, by decide⟩ ∧ KeepsNext 2 v ∧ KeepsPrevious 2 v := by
  have hread : Literal.read (.decimal 2) "12.34" = .ok ⟨false, 1234, 2, by decide, by decide⟩ := by
    decide +kernel
  obtain ⟨hnext, hprevious, _⟩ := keeps_iff hread
  exact ⟨_, hread, rfl, hnext.2 ⟨rfl, by decide⟩, hprevious.2 ⟨rfl, by decide⟩⟩

/-- The greatest mantissa, read where two fractional digits are asked for, has none: the value is its
own successor, neither reported nor greater. -/
theorem not_keepsNext : ∃ v,
    Literal.read (.decimal 2) "79228162514264337593543950335" = .ok v ∧
      (Domain.decimal 2).next v = .ok v ∧ ¬ KeepsNext 2 v := by
  have hread : Literal.read (.decimal 2) "79228162514264337593543950335" =
      .ok ⟨false, 79228162514264337593543950335, 0, by decide, by decide⟩ := by
    decide +kernel
  have hnext : (Domain.decimal 2).next ⟨false, 79228162514264337593543950335, 0, by decide, by decide⟩ =
      .ok ⟨false, 79228162514264337593543950335, 0, by decide, by decide⟩ := by
    decide +kernel
  refine ⟨_, hread, hnext, ?_⟩
  rintro (hreported | ⟨c, hc, hlt, _⟩)
  · cases hnext.symm.trans hreported
  · obtain rfl := Except.ok.inj (hnext.symm.trans hc)
    exact Domain.not_lt_of_le Domain.le_refl hlt

end Decimal

end CatalogStats
