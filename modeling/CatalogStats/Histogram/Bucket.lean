import CatalogStats.Domain.Basic

/-!
# Histogram/Bucket — runs of values with a common count

A bucket covers every value between two bounds and says how many rows hold one of them.  A bucket
whose bounds are the same value is exact: its frequency is the count of that value.  In any other
bucket the frequency is taken to be spread evenly.
-/

namespace CatalogStats

/-- The values from `lower` to `upper`, held by `frequency` rows. -/
structure Bucket (α : Type) where
  lower : α
  upper : α
  frequency : Nat
  deriving Repr, DecidableEq

/-- A value and the number of rows that hold it. -/
structure Tally (α : Type) where
  value : α
  count : UInt64
  deriving Repr, DecidableEq

namespace Bucket

variable {α : Type} (D : Domain α)

/-- The exact bucket of a value. -/
def single (value : α) (count : Nat) : Bucket α := ⟨value, value, count⟩

/-- Whether the bucket holds a single value. -/
def isExact (b : Bucket α) : Bool := D.same b.lower b.upper

/-- Whether a value lies between the bounds. -/
def contains (b : Bucket α) (v : α) : Bool := D.le b.lower v && D.le v b.upper

/-- The number of values between the bounds. -/
def span (b : Bucket α) : Nat := D.span b.lower b.upper

/-- Whether two buckets have the same bounds and the same frequency. -/
def same (a b : Bucket α) : Bool :=
  D.same a.lower b.lower && D.same a.upper b.upper && a.frequency == b.frequency

end Bucket

end CatalogStats
