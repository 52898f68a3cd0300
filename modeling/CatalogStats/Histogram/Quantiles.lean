import CatalogStats.Histogram.Basic

/-!
# Histogram/Quantiles — a histogram from cumulative counts

A quantile says how many rows hold a value up to a boundary.  Each becomes a bucket whose frequency is
the difference to the count before it.  The first bucket starts at the reported minimum, every later
one right after the boundary before it.
-/

namespace CatalogStats.Histogram

/-- A boundary and the number of rows whose value is not above it. -/
structure Quantile (α : Type) where
  boundary : α
  cumulative : UInt64
  deriving Repr, DecidableEq

variable {α : Type} (D : Domain α)

/-- The neighbour of a value, or the fault of a bucket that cannot be cut there. -/
def cutAt {β : Type} (step : Except (Domain.Fault α) β) : Except (Fault α) β :=
  match step with
  | .ok b => .ok b
  | .error fault => .error (.neighbour fault)

/-- The buckets from `last` on, which ends at the quantile `previous`.  A quantile after whose
predecessor no value is left extends the last bucket.  `index` counts the quantiles. -/
def bucketsAfter (last : Bucket α) (previous : Quantile α) :
    Nat → List (Quantile α) → Except (Fault α) (List (Bucket α))
  | _, [] => .ok [last]
  | index, q :: qs =>
    if D.le q.boundary previous.boundary then
      .error (.unordered index q.boundary previous.boundary)
    else do
      let lower ← cutAt (D.next previous.boundary)
      if q.cumulative < previous.cumulative then
        .error (.decreasing q.boundary q.cumulative.toNat previous.cumulative.toNat)
      else
        let frequency := q.cumulative.toNat - previous.cumulative.toNat
        if D.lt q.boundary lower then
          bucketsAfter ⟨last.lower, q.boundary, last.frequency + frequency⟩ q (index + 1) qs
        else do
          let others ← bucketsAfter ⟨lower, q.boundary, frequency⟩ q (index + 1) qs
          .ok (last :: others)

/-- Where the first bucket starts: at the minimum, or one value before it when the first boundary is
the minimum itself. -/
def firstLower (minimum boundary : α) : Except (Fault α) α :=
  match D.compare boundary minimum with
  | .lt => .error (.belowMinimum boundary minimum)
  | .eq => cutAt (D.previous minimum)
  | .gt => .ok minimum

/-- **The histogram of cumulative counts** above a minimum. -/
def ofQuantiles (minimum : α) : List (Quantile α) → Except (Fault α) (Histogram D)
  | [] => .ok empty
  | q :: qs => do
    let lower ← firstLower D minimum q.boundary
    let buckets ← bucketsAfter D ⟨lower, q.boundary, q.cumulative.toNat⟩ q 1 qs
    ofBuckets D buckets

end CatalogStats.Histogram
