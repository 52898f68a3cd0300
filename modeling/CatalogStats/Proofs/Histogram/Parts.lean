import CatalogStats.Proofs.Histogram.Lookup
import CatalogStats.Proofs.Histogram.Making

/-!
# Proofs/Histogram/Parts — the exact and the other buckets of a histogram

Leaving out buckets opens gaps, but the buckets that stay keep their order, so looking up a value in
a part finds the bucket it has in the whole if that bucket was kept, and none otherwise
(`bucket?_filter`).  What holds of a test and its negation follows for the two parts of a histogram:
they interleave to the whole, and totals and estimates add up (`splitsInto_parts`).
-/

namespace CatalogStats

/-- A list that consists of two others, each in its order. -/
inductive Interleaves {α : Type} : List α → List α → List α → Prop
  | nil : Interleaves [] [] []
  | left (a : α) {as bs cs : List α} (h : Interleaves as bs cs) : Interleaves (a :: as) bs (a :: cs)
  | right (b : α) {as bs cs : List α} (h : Interleaves as bs cs) : Interleaves as (b :: bs) (b :: cs)

/-- A list consists of what passes a test and of what does not. -/
theorem interleaves_filter {α : Type} (p : α → Bool) (l : List α) :
    Interleaves (l.filter p) (l.filter fun a => !p a) l := by
  induction l with
  | nil => exact .nil
  | cons a l ih =>
    cases hp : p a with
    | true =>
      rw [List.filter_cons_of_pos hp, List.filter_cons_of_neg (by rw [hp]; decide)]
      exact .left a ih
    | false =>
      rw [List.filter_cons_of_neg (by rw [hp]; decide), List.filter_cons_of_pos (by rw [hp]; rfl)]
      exact .right a ih

namespace Histogram

variable {α : Type} {D : Domain α} {h : Histogram D} {v : α}

/-! ## Two parts by a test -/

/-- **A part finds the bucket of a value** if it was kept. -/
theorem bucket?_filter (p : Bucket α → Bool) : (h.filter p).bucket? v = (h.bucket? v).filter p := by
  ext b
  rw [bucket?_eq_some_iff, Option.filter_eq_some_iff, bucket?_eq_some_iff, filter, List.mem_filter,
    and_right_comm]

theorem total_filter_add (p : Bucket α → Bool) :
    (h.filter p).total + (h.filter fun b => !p b).total = h.total := by
  simp only [total, Bucket.total_eq_sumOf]
  exact sumOf_map_filter_add _ p h.buckets

/-- **The estimates in the parts** add up. -/
theorem estimate_filter_add (p : Bucket α → Bool) :
    (h.filter p).estimate v + (h.filter fun b => !p b).estimate v = h.estimate v := by
  simp only [estimate_eq_sumOf]
  exact sumOf_map_filter_add _ p h.buckets

/-- A bucket found in the whole is found in one part… -/
theorem bucket?_eq_or_filter (p : Bucket α → Bool) (v : α) :
    h.bucket? v = ((h.filter p).bucket? v).or ((h.filter fun b => !p b).bucket? v) := by
  rw [bucket?_filter, bucket?_filter]
  cases h.bucket? v with
  | none => rfl
  | some b => cases hp : p b <;> simp [Option.filter, hp]

/-- …and in no more than one. -/
theorem bucket?_filter_eq_none_or (p : Bucket α → Bool) (v : α) :
    (h.filter p).bucket? v = none ∨ (h.filter fun b => !p b).bucket? v = none := by
  rw [bucket?_filter, bucket?_filter]
  cases h.bucket? v with
  | none => exact .inl rfl
  | some b => cases hp : p b <;> simp [Option.filter, hp]

/-- A part has only what passes its test. -/
theorem filter_filter_self (p : Bucket α → Bool) : (h.filter p).filter p = h.filter p :=
  eq_of_buckets_eq (by simp only [filter, List.filter_filter, Bool.and_self])

/-- …so nothing is left of it by a test that excludes the first. -/
theorem filter_filter_eq_empty {p q : Bucket α → Bool} (hpq : ∀ b, p b = true → q b = false) :
    (h.filter p).filter q = empty :=
  eq_of_buckets_eq (List.filter_eq_nil_iff.2 fun b hb =>
    Bool.eq_false_iff.1 (hpq b (List.mem_filter.1 hb).2))

/-! ## The exact and the other buckets -/

theorem exactPart_rangePart (h : Histogram D) : h.rangePart.exactPart = empty :=
  filter_filter_eq_empty fun b hb => by rwa [Bool.not_eq_true'] at hb

theorem rangePart_exactPart (h : Histogram D) : h.exactPart.rangePart = empty :=
  filter_filter_eq_empty fun b hb => by rw [hb, Bool.not_true]

theorem exactCounts_eq (h : Histogram D) :
    h.exactCounts = h.exactPart.buckets.map fun b => (b.lower, b.frequency) := rfl

/-- **A histogram splits into an exact part and a part of ranges.**  The parts are what is kept of it
and are sound; in order they interleave to it, and no row, no estimate and no exact count is lost. -/
structure SplitsInto (h e r : Histogram D) : Prop where
  exact_eq : (record h).filter (Bucket.isExact D) = some (.ok (record e))
  range_eq : (record h).filter (fun b => !b.isExact D) = some (.ok (record r))
  exact_sound : (record e).Sound D
  range_sound : (record r).Sound D
  interleaves : Interleaves e.buckets r.buckets h.buckets
  total_eq : e.total + r.total = h.total
  estimate_eq : ∀ v, h.estimate v = e.estimate v + r.estimate v
  bucket?_eq : ∀ v, h.bucket? v = (e.bucket? v).or (r.bucket? v)
  bucket?_or : ∀ v, e.bucket? v = none ∨ r.bucket? v = none
  exactCounts_eq : h.exactCounts = e.exactCounts
  exactCounts_range : r.exactCounts = []

/-- The exact counts are those of the exact part… -/
theorem exactCounts_exactPart (h : Histogram D) : h.exactPart.exactCounts = h.exactCounts := by
  have hself : h.exactPart.exactPart = h.exactPart := filter_filter_self _
  rw [exactCounts_eq, hself, ← exactCounts_eq]

/-- …and the other part has none. -/
theorem exactCounts_rangePart (h : Histogram D) : h.rangePart.exactCounts = [] := by
  rw [exactCounts_eq, exactPart_rangePart, empty, List.map_nil]

/-- **The exact and the other buckets partition a histogram.**  It splits into its parts, and taking a
part again changes nothing or leaves nothing. -/
theorem splitsInto_parts (k : Kind) (h : Histogram k.domain) :
    h.SplitsInto h.exactPart h.rangePart ∧
    h.exactPart.exactPart = h.exactPart ∧ h.rangePart.rangePart = h.rangePart ∧
    h.rangePart.exactPart = empty ∧ h.exactPart.rangePart = empty := by
  refine ⟨?_, filter_filter_self _, filter_filter_self _, exactPart_rangePart h,
    rangePart_exactPart h⟩
  exact {
    exact_eq := filter_record h _
    range_eq := filter_record h _
    exact_sound := sound_iff_exists_record.2 ⟨_, rfl⟩
    range_sound := sound_iff_exists_record.2 ⟨_, rfl⟩
    interleaves := interleaves_filter _ _
    total_eq := total_filter_add _
    estimate_eq := fun _ => (estimate_filter_add _).symm
    bucket?_eq := bucket?_eq_or_filter _
    bucket?_or := bucket?_filter_eq_none_or _
    exactCounts_eq := (exactCounts_exactPart h).symm
    exactCounts_range := exactCounts_rangePart h
  }

end Histogram

end CatalogStats
