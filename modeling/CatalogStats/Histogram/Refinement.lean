import CatalogStats.Histogram.Allotment
import CatalogStats.Histogram.Quantiles

/-!
# Histogram/Refinement — exact counts for single values

Each counted value receives an exact bucket of its own.  The bucket that held it is cut around it, and
what its frequency has left after the exact counts goes to the ranges between the counted values, in
proportion to the number of values in each.  Ranges that have no bounds in the domain are dropped.
-/

namespace CatalogStats.Histogram

variable {α : Type}

/-! ## Counted values -/

/-- Counted values in ascending order. -/
def sorted (D : Domain α) (tallies : List (Tally α)) : List (Tally α) :=
  tallies.mergeSort fun a b => D.le a.value b.value

/-- The first of two neighbours that are the same value. -/
def repeated? (D : Domain α) : List (Tally α) → Option α
  | a :: b :: rest => if D.same a.value b.value then some a.value else repeated? D (b :: rest)
  | _ => none

/-- Counted values in ascending order, each listed once. -/
def distinct (D : Domain α) (tallies : List (Tally α)) : Except (Fault α) (List (Tally α)) :=
  match repeated? D (sorted D tallies) with
  | some value => .error (.repeated value)
  | none => .ok (sorted D tallies)

/-- **The histogram that has only exact counts.** -/
def ofTallies (D : Domain α) (tallies : List (Tally α)) : Except (Fault α) (Histogram D) := do
  let tallies ← distinct D tallies
  ofBuckets D (tallies.map fun t => .single t.value t.count.toNat)

/-! ## Cutting a bucket -/

/-- A piece of a bucket: values of which no count is known, or a counted value. -/
inductive Segment (α : Type) where
  | range (lower upper : α)
  | exact (tally : Tally α)
  deriving Repr, DecidableEq

/-- The values from `start` up to the one before a counted value, if there are any. -/
def rangeBefore (D : Domain α) (start : Option α) (value : α) :
    Except (Domain.Fault α) (List (Segment α)) :=
  match start with
  | none => .ok []
  | some lower =>
    if D.lt lower value then do
      let upper ← D.previous value
      .ok (if D.le lower upper then [.range lower upper] else [])
    else .ok []

/-- Where the next range can start after a counted value; none at the end of the bucket. -/
def startAfter (D : Domain α) (value upper : α) : Except (Domain.Fault α) (Option α) :=
  if D.same value upper then .ok none
  else do
    let next ← D.next value
    .ok (if D.le next upper then some next else none)

/-- **The pieces from `start` to `upper`** around counted values in ascending order. -/
def segments (D : Domain α) (upper : α) :
    Option α → List (Tally α) → Except (Domain.Fault α) (List (Segment α))
  | none, [] => .ok []
  | some lower, [] => .ok [.range lower upper]
  | start, t :: ts => do
    let before ← rangeBefore D start t.value
    let start ← startAfter D t.value upper
    let others ← segments D upper start ts
    .ok (before ++ .exact t :: others)

/-- The number of values in each range. -/
def weights (D : Domain α) : List (Segment α) → List Nat
  | [] => []
  | .range lower upper :: ss => D.span lower upper :: weights D ss
  | .exact _ :: ss => weights D ss

/-- The buckets of the pieces; the ranges take the given frequencies in order. -/
def fill : List (Segment α) → List Nat → List (Bucket α)
  | [], _ => []
  | .exact t :: ss, shares => .single t.value t.count.toNat :: fill ss shares
  | .range lower upper :: ss, share :: shares => ⟨lower, upper, share⟩ :: fill ss shares
  | .range lower upper :: ss, [] => ⟨lower, upper, 0⟩ :: fill ss []

/-- **Cuts a bucket around the counted values inside it.** -/
def cut (D : Domain α) (b : Bucket α) (tallies : List (Tally α)) :
    Except (Fault α) (List (Bucket α)) :=
  let removed := sumOf (tallies.map fun t => t.count.toNat)
  if 18446744073709551616 ≤ removed then .error (.tooMany b.lower b.upper)
  else if b.frequency < removed then .error (.overdrawn b removed)
  else do
    let pieces ← cutAt (segments D b.upper (some b.lower) tallies)
    let residual := b.frequency - removed
    let ranges := weights D pieces
    if ranges = [] ∧ residual ≠ 0 then .error (.unplaced b residual)
    else .ok (fill pieces (Allotment.shares residual ranges))

/-! ## Refining a histogram -/

/-- An exact bucket whose frequency was not the exact count of its value. -/
structure Note (α : Type) where
  value : α
  frequency : Nat
  count : Nat
  deriving Repr, DecidableEq

/-- A result with the notes taken on the way to it. -/
structure Noted (α β : Type) where
  notes : List (Note α)
  result : Except (Fault α) β

/-- The buckets that take the place of a bucket, given the counted values inside it. -/
def refineBucket (D : Domain α) (b : Bucket α) : List (Tally α) → Noted α (List (Bucket α))
  | [] => ⟨[], .ok [b]⟩
  | t :: ts =>
    if b.isExact D then
      if b.frequency < t.count.toNat then ⟨[], .error (.overdrawn b t.count.toNat)⟩
      else
        ⟨if t.count.toNat = b.frequency then [] else [⟨t.value, b.frequency, t.count.toNat⟩],
          .ok [.single t.value t.count.toNat]⟩
    else ⟨[], cut D b (t :: ts)⟩

/-- **The refined buckets**, for counted values in ascending order.  Each bucket takes the values up
to its end; one of them below its start lies between two buckets. -/
def refineBuckets (D : Domain α) :
    List (Bucket α) → List (Tally α) → Noted α (List (Bucket α))
  | [], [] => ⟨[], .ok []⟩
  | [], t :: _ => ⟨[], .error (.uncovered t.value)⟩
  | b :: bs, tallies =>
    let inside := tallies.takeWhile fun t => D.le t.value b.upper
    match inside.find? fun t => D.lt t.value b.lower with
    | some t => ⟨[], .error (.uncovered t.value)⟩
    | none =>
      let first := refineBucket D b inside
      match first.result with
      | .error fault => ⟨first.notes, .error fault⟩
      | .ok pieces =>
        let others := refineBuckets D bs (tallies.dropWhile fun t => D.le t.value b.upper)
        ⟨first.notes ++ others.notes, others.result.map (pieces ++ ·)⟩

variable {D : Domain α}

/-- The fault of the first counted value that lies below or above all buckets. -/
def rangeFault? (h : Histogram D) (tallies : List (Tally α)) : Option (Fault α) :=
  match h.min?, h.max? with
  | some lower, some upper =>
    (tallies.find? fun t => D.lt t.value lower || D.lt upper t.value).map
      fun t => .outside t.value lower upper
  | _, _ => tallies.head?.map fun t => .uncovered t.value

/-- The total after the exact counts have taken the place of the frequencies in the notes. -/
def expectedTotal (h : Histogram D) (notes : List (Note α)) : Nat :=
  h.total + sumOf (notes.map Note.count) - sumOf (notes.map Note.frequency)

/-- The histogram of refined buckets, if it has the expected total. -/
def rebuild (h : Histogram D) (notes : List (Note α)) (buckets : List (Bucket α)) :
    Except (Fault α) (Histogram D) := do
  let refined ← ofBuckets D buckets
  refined.checkTotal (h.expectedTotal notes)
  .ok refined

/-- **A histogram refined by exact counts**, given in any order. -/
def refine (h : Histogram D) (tallies : List (Tally α)) : Noted α (Histogram D) :=
  if tallies.isEmpty then ⟨[], .ok h⟩
  else
    match distinct D tallies with
    | .error fault => ⟨[], .error fault⟩
    | .ok tallies =>
      match h.rangeFault? tallies with
      | some fault => ⟨[], .error fault⟩
      | none =>
        let refined := refineBuckets D h.buckets tallies
        ⟨refined.notes, refined.result.bind (h.rebuild refined.notes)⟩

end CatalogStats.Histogram
