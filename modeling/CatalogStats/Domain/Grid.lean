import CatalogStats.Domain.Basic
import CatalogStats.Number.Decimal

/-!
# Domain/Grid — decimals with a fixed number of fractional digits

Neighbours are one unit of the last digit apart, and spans are counted on the mantissas.  A value
too large for the wanted number of digits keeps as many as fit.
-/

namespace CatalogStats

/-- A number of fractional digits. -/
abbrev Scale := Fin 29

namespace Scale

/-- The scale nearest to a number. -/
def clamp (n : Nat) : Scale := ⟨min n 28, by omega⟩

end Scale

namespace Decimal

/-- One unit of the last digit at a scale. -/
def step (scale : Scale) : Decimal where
  negative := false
  mantissa := 1
  scale := scale
  mantissa_lt := by decide
  scale_le := by omega

/-- The value one step up, if it can be represented. -/
def next? (scale : Scale) (d : Decimal) : Option Decimal :=
  ((d.atScale scale).add? (step scale)).map (atScale scale)

/-- The value one step down, if it can be represented. -/
def previous? (scale : Scale) (d : Decimal) : Option Decimal :=
  ((d.atScale scale).add? (step scale).neg).map (atScale scale)

/-- The number of steps from one mantissa to the other, plus one. -/
def span (scale : Scale) (a b : Decimal) : Nat :=
  ((a.atScale scale).signed - (b.atScale scale).signed).natAbs + 1

end Decimal

/-- **The domain of decimals at a scale.**  Values compare by number, whatever their scales. -/
def Domain.decimal (scale : Scale) : Domain Decimal where
  name := "decimal"
  text := Decimal.text
  compare := compareOn Decimal.units
  next? := Decimal.next? scale
  previous? := Decimal.previous? scale
  span := Decimal.span scale
  trans := inferInstance

end CatalogStats
