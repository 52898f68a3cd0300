import CatalogStats.Catalog.Column
import CatalogStats.Number.Binary64

/-!
# Profile/Basic — the distribution of a column

A profile lists the buckets of a column with their bounds as texts.  Shares are taken of all rows,
those without a value included.
-/

namespace CatalogStats

namespace Profile

/-- A bucket of a profile. -/
structure Bin where
  lower : String
  upper : String
  frequency : Nat
  /-- Whether the frequency is the exact count of a single value. -/
  exact : Bool
  deriving Repr, DecidableEq

end Profile

/-- The distribution of a column. -/
structure Profile where
  column : QualifiedName
  /-- The name of the domain of the column. -/
  domain : String
  /-- The number of distinct values that the catalog reports. -/
  cardinality : UInt64
  /-- The number of rows without a value. -/
  nulls : UInt64
  /-- The number of rows in all bins. -/
  total : Nat
  bins : List Profile.Bin
  deriving Repr, DecidableEq

namespace Profile

/-- The bins of single values. -/
def exactBins (p : Profile) : List Bin := p.bins.filter Bin.exact

/-- The bins of more than one value. -/
def rangeBins (p : Profile) : List Bin := p.bins.filter fun b => !b.exact

/-- **Whether every distinct value has an exact bin.** -/
def isEnumerated (p : Profile) : Bool :=
  0 < p.exactBins.length && p.exactBins.length == p.cardinality.toNat

/-- The number of rows, at most 64 bits. -/
def rows (p : Profile) : Nat := min (p.total + p.nulls.toNat) 18446744073709551615

/-- The share of a number of rows. -/
def share (p : Profile) (frequency : Nat) : Binary64 :=
  if p.rows = 0 then .zero else .quotient frequency p.rows

/-- The share of the rows without a value. -/
def nullShare (p : Profile) : Binary64 := p.share p.nulls.toNat

end Profile

end CatalogStats
