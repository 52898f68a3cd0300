import CatalogStats.Histogram.Bucket
import CatalogStats.Text.Numeral

/-!
# Histogram/Fault — why a histogram cannot be built

A fault names what is wrong by the values concerned.  Each belongs to one of three classes: a value
has no neighbour, the statistics contradict each other, or the given values are malformed.
-/

namespace CatalogStats

/-- The classes of faults, by which a caller decides what to do. -/
inductive FaultClass where
  | domain
  | consistency
  | input
  deriving Repr, DecidableEq

/-- The name of a class. -/
def FaultClass.name : FaultClass → String
  | .domain => "Domain"
  | .consistency => "Consistency"
  | .input => "Input"

namespace Histogram

/-- Why a histogram cannot be built. -/
inductive Fault (α : Type) where
  /-- A value at which a bucket is cut has no neighbour. -/
  | neighbour (fault : Domain.Fault α)
  /-- A bucket ends before it starts. -/
  | inverted (index : Nat) (lower upper : α)
  /-- A bucket starts where the one before it has not ended. -/
  | overlapping (index : Nat) (lower previousUpper : α)
  /-- The exact counts inside a bucket are more than its frequency. -/
  | overdrawn (bucket : Bucket α) (removed : Nat)
  /-- Every value of a bucket has an exact count, and frequency is left over. -/
  | unplaced (bucket : Bucket α) (residual : Nat)
  /-- A cumulative count is below the one before it. -/
  | decreasing (boundary : α) (cumulative previous : Nat)
  | totalMismatch (expected actual : Nat)
  /-- The frequencies up to a bucket, or the exact counts inside it, pass 64 bits. -/
  | tooMany (lower upper : α)
  /-- A quantile boundary is not above the one before it. -/
  | unordered (index : Nat) (boundary previous : α)
  | belowMinimum (boundary minimum : α)
  /-- A value lies below or above all buckets. -/
  | outside (value minimum maximum : α)
  /-- A value lies between two buckets. -/
  | uncovered (value : α)
  | repeated (value : α)
  deriving Repr, DecidableEq

namespace Fault

variable {α : Type}

/-- The class of a fault. -/
def kind : Fault α → FaultClass
  | neighbour _ => .domain
  | inverted .. | overlapping .. | overdrawn .. | unplaced .. | decreasing .. | totalMismatch ..
  | tooMany .. => .consistency
  | unordered .. | belowMinimum .. | outside .. | uncovered _ | repeated _ => .input

/-- The wording of a fault. -/
def message (D : Domain α) : Fault α → String
  | neighbour _ => "Domain error while splitting buckets."
  | inverted index lower upper =>
    let i := Numeral.text index
    s!"Bucket {i} has lower bound '{D.text lower}' above upper bound '{D.text upper}'."
  | overlapping index lower previous =>
    let i := Numeral.text index
    s!"Bucket {i} starts at '{D.text lower}', which does not follow the previous upper bound "
      ++ s!"'{D.text previous}'."
  | overdrawn b removed =>
    let held := Numeral.text b.frequency
    let removed := Numeral.text removed
    s!"Bucket ['{D.text b.lower}', '{D.text b.upper}'] holds {held} but exact counts of {removed} "
      ++ "were attributed to it."
  | unplaced b residual =>
    let residual := Numeral.text residual
    s!"Bucket ['{D.text b.lower}', '{D.text b.upper}'] has {residual} unattributed after all of "
      ++ "its values were given exact counts."
  | decreasing boundary cumulative previous =>
    let cumulative := Numeral.text cumulative
    let previous := Numeral.text previous
    s!"Cumulative count at boundary '{D.text boundary}' is {cumulative}, below the previous "
      ++ s!"cumulative count {previous}."
  | totalMismatch expected actual =>
    let expected := Numeral.text expected
    let actual := Numeral.text actual
    s!"Histogram holds {actual} in total, expected {expected}."
  | tooMany lower upper =>
    s!"Frequencies summed at bucket ['{D.text lower}', '{D.text upper}'] overflow a 64-bit count."
  | unordered index boundary previous =>
    let i := Numeral.text index
    s!"Quantile boundary {i} ('{D.text boundary}') does not follow previous boundary "
      ++ s!"'{D.text previous}'."
  | belowMinimum boundary minimum =>
    s!"First quantile boundary '{D.text boundary}' is below the reported minimum "
      ++ s!"'{D.text minimum}'."
  | outside value minimum maximum =>
    s!"Frequent value '{D.text value}' is outside the histogram range "
      ++ s!"['{D.text minimum}', '{D.text maximum}']."
  | uncovered value => s!"Frequent value '{D.text value}' is not covered by any bucket."
  | repeated value => s!"Frequent value '{D.text value}' is listed more than once."

end Fault

end Histogram

end CatalogStats
