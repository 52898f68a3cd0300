import CatalogStats.Number.Binary64
import CatalogStats.Text.Numeral

/-!
# Number/Decimal — decimals of 96 bits

A decimal is a sign, a mantissa below `2 ^ 96` and a scale, the number of its fractional digits, of
at most 28.  Operations are exact as long as the result fits.  A result that does not fit gives up as
few fractional digits as it can and is rounded half to even.
-/

namespace CatalogStats

/-- `± mantissa · 10 ^ -scale`.  Zero may have either sign. -/
structure Decimal where
  negative : Bool
  mantissa : Nat
  scale : Nat
  mantissa_lt : mantissa < 79228162514264337593543950336
  scale_le : scale ≤ 28
  deriving DecidableEq

namespace Decimal

/-- Mantissas stay below this bound. -/
abbrev limit : Nat := 79228162514264337593543950336

/-- The decimal with these parts, if they fit. -/
def ofParts? (negative : Bool) (mantissa scale : Nat) : Option Decimal :=
  if h : mantissa < limit ∧ scale ≤ 28 then some ⟨negative, mantissa, scale, h.1, h.2⟩ else none

/-- The mantissa with the sign. -/
def signed (d : Decimal) : Int := if d.negative then -(d.mantissa : Int) else d.mantissa

/-- **The value in units of `10 ^ -28`.** -/
def units (d : Decimal) : Int := d.signed * tenTo (28 - d.scale)

/-- The same digits with the other sign. -/
def neg (d : Decimal) : Decimal := { d with negative := !d.negative }

/-! ## Text -/

/-- A hyphen if the sign is negative, then all digits of the mantissa with a point in front of the
last `scale` of them. -/
def chars (d : Decimal) : List Char :=
  let ds := Numeral.padded (d.scale + 1) d.mantissa
  let whole := ds.length - d.scale
  let body := if d.scale = 0 then ds else ds.take whole ++ '.' :: ds.drop whole
  if d.negative then '-' :: body else body

/-- A decimal as a text. -/
def text (d : Decimal) : String := String.ofList d.chars

/-! ## Rescaling -/

/-- Appends up to `n` fractional zeros, as long as the mantissa fits. -/
def raise : Nat → Decimal → Decimal
  | 0, d => d
  | n + 1, d =>
    if h : d.mantissa * 10 < limit ∧ d.scale < 28 then
      raise n ⟨d.negative, d.mantissa * 10, d.scale + 1, h.1, h.2⟩
    else d

/-- Rounds to a smaller scale, a half away from zero.  Only the first digit that goes decides. -/
def lower (scale : Nat) (d : Decimal) (h : scale < d.scale) : Decimal where
  negative := d.negative
  mantissa := (d.mantissa / tenTo (d.scale - scale - 1) + 5) / 10
  scale := scale
  mantissa_lt := by
    have h₁ := Nat.div_le_self d.mantissa (tenTo (d.scale - scale - 1))
    have h₂ := d.mantissa_lt
    omega
  scale_le := by
    have := d.scale_le
    omega

/-- **The value with `scale` fractional digits**, or as many as fit. -/
def atScale (scale : Nat) (d : Decimal) : Decimal :=
  if h : scale < d.scale then d.lower scale h else d.raise (scale - d.scale)

/-! ## Sums and products -/

/-- The number of final digits that have to go until `n` is below the limit. -/
def excessDigits : Nat → Nat → Nat
  | 0, _ => 0
  | fuel + 1, n => if n < limit then 0 else excessDigits fuel (n / 10) + 1

/-- Reduces `n · 10 ^ -scale` to a mantissa that fits, rounding half to even.  There is none when
more digits have to go than are fractional. -/
def reduce (n scale : Nat) : Option (Nat × Nat) :=
  let k := excessDigits (n + 1) n
  if k = 0 then some (n, scale)
  else if scale < k then none
  else
    let m := roundHalfEven n (tenTo k)
    if m < limit then some (m, scale - k)
    else if scale = k then none
    else some (roundHalfEven m 10, scale - k - 1)

/-- **The sum**, if it fits after rounding.  A zero operand leaves the other one as it is. -/
def add? (a b : Decimal) : Option Decimal :=
  if a.mantissa = 0 then some b
  else if b.mantissa = 0 then some a
  else do
    let scale := max a.scale b.scale
    let sum := a.signed * tenTo (scale - a.scale) + b.signed * tenTo (scale - b.scale)
    let (m, s) ← reduce sum.natAbs scale
    ofParts? (sum < 0) m s

/-- The product with `10 ^ n`, if it fits after rounding. -/
def shift? (n : Nat) (d : Decimal) : Option Decimal :=
  if d.mantissa = 0 then ofParts? false 0 0
  else do
    let (m, s) ← reduce (d.mantissa * tenTo n) d.scale
    ofParts? d.negative m s

/-- Takes trailing fractional zeros off. -/
def stripped : Nat → Decimal → Decimal
  | 0, d => d
  | n + 1, d =>
    if d.scale ≠ 0 ∧ d.mantissa % 10 = 0 then
      stripped n
        { d with
          mantissa := d.mantissa / 10
          scale := d.scale - 1
          mantissa_lt := Nat.lt_of_le_of_lt (Nat.div_le_self _ _) d.mantissa_lt
          scale_le := Nat.le_trans (Nat.sub_le _ _) d.scale_le }
    else d

end Decimal

end CatalogStats
