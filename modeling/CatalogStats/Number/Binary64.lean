import CatalogStats.Number.Power

/-!
# Number/Binary64 — ratios in double precision

A non-negative number of double precision is `significand · 2 ^ exponent` with a significand of 53
bits.  Every operation is one exact ratio of natural numbers that `ofRatio` rounds to the nearest
such number, ties to the even significand.  The ratios of this library lie far inside the range of
exponents, so none overflows and none is subnormal.
-/

namespace CatalogStats

/-- A non-negative number of double precision: `significand · 2 ^ exponent`. -/
structure Binary64 where
  significand : Nat
  exponent : Int
  deriving Repr, DecidableEq

/-- The quotient of two natural numbers, rounded to the nearest natural number, ties to even. -/
def roundHalfEven (num den : Nat) : Nat :=
  let q := num / den
  let r := num % den
  if 2 * r < den ∨ (2 * r = den ∧ q % 2 = 0) then q else q + 1

namespace Binary64

/-- Zero carries the least exponent, so it is below every other number. -/
def zero : Binary64 := ⟨0, -1074⟩

/-- The ratio `num / den` in units of `2 ^ e`, again as a ratio. -/
def scaled (num den : Nat) (e : Int) : Nat × Nat := (num * twoTo (-e).toNat, den * twoTo e.toNat)

/-- The exponent at which the ratio of two positive numbers has a whole part of 53 bits. -/
def quantum (num den : Nat) : Int :=
  let e := (num.log2 : Int) - den.log2 - 52
  let (n, d) := scaled num den e
  if n < d * 4503599627370496 then e - 1 else e

/-- **The number of double precision nearest to `num / den`**, ties to the even significand. -/
def ofRatio (num den : Nat) : Binary64 :=
  if num = 0 ∨ den = 0 then zero
  else
    let e := quantum num den
    let (n, d) := scaled num den e
    let q := roundHalfEven n d
    if q = 9007199254740992 then ⟨4503599627370496, e + 1⟩ else ⟨q, e⟩

/-- The nearest number of double precision to a natural number. -/
def ofNat (n : Nat) : Binary64 := ofRatio n 1

/-- The value as an exact ratio. -/
def toRatio (x : Binary64) : Nat × Nat :=
  (x.significand * twoTo x.exponent.toNat, twoTo (-x.exponent).toNat)

/-- The rounded product. -/
def mul (x y : Binary64) : Binary64 :=
  let (a, b) := x.toRatio
  let (c, d) := y.toRatio
  ofRatio (a * c) (b * d)

/-- The rounded quotient. -/
def div (x y : Binary64) : Binary64 :=
  let (a, b) := x.toRatio
  let (c, d) := y.toRatio
  ofRatio (a * d) (b * c)

/-- The whole part. -/
def floor (x : Binary64) : Nat := x.toRatio.1 / x.toRatio.2

/-- What lies above the natural number `n`, which is at most the value. -/
def above (x : Binary64) (n : Nat) : Binary64 :=
  let (a, b) := x.toRatio
  ofRatio (a - n * b) b

/-- The order of the values: first by exponent, then by significand. -/
def compare (x y : Binary64) : Ordering :=
  (Ord.compare x.exponent y.exponent).then (Ord.compare x.significand y.significand)

/-- The quotient of two natural numbers, each rounded before the division. -/
def quotient (n d : Nat) : Binary64 := div (ofNat n) (ofNat d)

/-- Nothing over anything is zero. -/
@[simp] theorem ofRatio_zero (den : Nat) : ofRatio 0 den = zero := by simp [ofRatio]

end Binary64

end CatalogStats
