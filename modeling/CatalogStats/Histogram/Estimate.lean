import CatalogStats.Histogram.Basic
import CatalogStats.Number.Binary64

/-!
# Histogram/Estimate — how often a value occurs

The value is looked up among the buckets.  In an exact bucket the frequency is its count; in any
other the frequency is divided evenly among the values of the bucket.
-/

namespace CatalogStats.Histogram

variable {α : Type} {D : Domain α}

/-- The place of the bucket that holds a value: the first that does not end before it, unless it
starts after it. -/
def positionIn (D : Domain α) (v : α) : List (Bucket α) → Option Nat
  | [] => none
  | b :: bs =>
    if D.le v b.upper then if D.lt v b.lower then none else some 0
    else (positionIn D v bs).map (· + 1)

/-- **The place of the bucket that holds a value**, none below, above and between the buckets. -/
def position? (h : Histogram D) (v : α) : Option Nat := positionIn D v h.buckets

/-- The bucket that holds a value. -/
def bucket? (h : Histogram D) (v : α) : Option (Bucket α) :=
  (h.position? v).bind fun i => h.buckets[i]?

/-- **The estimated count of a value**, rounded down. -/
def estimate (h : Histogram D) (v : α) : Nat :=
  match h.bucket? v with
  | some b => b.frequency / max (b.span D) 1
  | none => 0

/-- The estimated share of a value among all rows. -/
def likelihood (h : Histogram D) (v : α) : Binary64 :=
  if h.total = 0 then .zero else .quotient (h.estimate v) h.total

/-- The values of the exact buckets with their counts. -/
def exactCounts (h : Histogram D) : List (α × Nat) :=
  (h.buckets.filter (Bucket.isExact D)).map fun b => (b.lower, b.frequency)

end CatalogStats.Histogram
