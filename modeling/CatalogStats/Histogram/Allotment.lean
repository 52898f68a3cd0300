import CatalogStats.Number.Binary64

/-!
# Histogram/Allotment — splitting a total in proportion to weights

Each weight first receives the whole part of its quota.  What rounding down left over is handed out
one by one to the positive weights, largest remainder first and of equal remainders the earliest.
Remainders are compared in double precision, and a quota whose product needs more than 128 bits is
computed in it.
-/

namespace CatalogStats.Allotment

/-- What a weight receives before the rest is handed out. -/
structure Quota where
  share : Nat
  remainder : Binary64
  deriving Repr, DecidableEq

/-- The sum of the weights, at most 128 bits. -/
def weightSum (weights : List Nat) : Nat :=
  min (sumOf weights) 340282366920938463463374607431768211455

/-- The word of 64 bits for a whole number in double precision.  It is the greatest word for all
numbers that are greater. -/
def saturated (whole : Nat) : Nat := min whole 18446744073709551615

/-- The quota of a weight. -/
def quota (total sum weight : Nat) : Quota :=
  if total * weight < 340282366920938463463374607431768211456 then
    ⟨total * weight / sum, .quotient (total * weight % sum) sum⟩
  else
    let exact := (Binary64.ofNat total).mul (.quotient weight sum)
    let whole := min exact.floor (Binary64.ofNat total).floor
    ⟨saturated whole, exact.above whole⟩

/-- Takes an excess off the front of a list of shares, each as far as it goes. -/
def trim : Nat → List Nat → List Nat
  | _, [] => []
  | excess, s :: ss => (s - excess) :: trim (excess - s) ss

/-- Takes what exceeds a total off the last shares. -/
def trimmed (total : Nat) (shares : List Nat) : List Nat :=
  (trim (sumOf shares - total) shares.reverse).reverse

/-- Whether one remainder goes before another: it is larger, or equal and earlier. -/
def precedes (a b : Binary64 × Nat) : Bool :=
  match a.1.compare b.1 with
  | .gt => true
  | .eq => a.2 ≤ b.2
  | .lt => false

/-- The places of the positive weights, in the order in which they receive what is left over. -/
def order (weights : List Nat) (remainders : List Binary64) : List Nat :=
  ((remainders.zipIdx.mergeSort precedes).map (·.2)).filter fun i => 0 < weights.getD i 0

/-- Hands out what is left over, in rounds over the places in `order`. -/
def handOut (leftover : Nat) (order : List Nat) (shares : List Nat) : List Nat :=
  let extra := order.take (leftover % order.length)
  shares.zipIdx.map fun (share, i) =>
    share + (if i ∈ order then leftover / order.length else 0) + (if i ∈ extra then 1 else 0)

/-- **The shares of a total** for a list of weights; all are zero when every weight is. -/
def shares (total : Nat) (weights : List Nat) : List Nat :=
  let sum := weightSum weights
  if sum = 0 then weights.map fun _ => 0
  else
    let quotas := weights.map (quota total sum)
    let base := trimmed total (quotas.map Quota.share)
    handOut (total - sumOf base) (order weights (quotas.map Quota.remainder)) base

end CatalogStats.Allotment
