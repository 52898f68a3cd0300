import CatalogStats.Profile.Column
import CatalogStats.Proofs.Histogram.Validity
import Mathlib.Algebra.Order.Field.Basic
import Mathlib.Algebra.Order.Field.Rat

/-!
# Proofs/Profile/Shares — the shares of a column account for its rows

The profile of a column is that of a valid histogram (`exists_histogram_of_attempt`), so its total is
the sum of the frequencies of its bins and has 64 bits.  The number of all rows is the total together
with the rows without a value, cut off at 64 bits: where nothing is cut off the shares of all bins
and of the rows without a value sum to one, and where something is they sum to more
(`shares_of_attempt`).
-/

namespace CatalogStats.Profile

variable {k : Kind} {c : Column} {p : Profile}

/-! ## Totals -/

/-- **A profile is that of a histogram**, with or without quantiles. -/
theorem exists_histogram_of_attempt (h : (attempt k c).result = .ok p) :
    ∃ s : Histogram k.domain, p = ofHistogram k c s := by
  rw [attempt] at h
  split at h
  case h_1 => cases h
  case h_2 tallies _ =>
    split at h
    case isTrue =>
      obtain ⟨s, _, hp⟩ := map_eq_ok_iff.1 h
      exact ⟨s, hp⟩
    case isFalse =>
      split at h
      case h_1 => cases h
      case h_2 quantiled _ =>
        obtain ⟨s, _, hp⟩ := map_eq_ok_iff.1 h
        exact ⟨s, hp⟩

/-- The rows in bins. -/
def binned (bs : List Bin) : ℕ := sumOf (bs.map Bin.frequency)

theorem binned_map_ofBucket (bs : List (Bucket k.Value)) :
    binned (bs.map (Bin.ofBucket k)) = Bucket.total bs := by
  rw [binned, List.map_map, Bucket.total_eq_sumOf]
  rfl

theorem binned_exactBins_add_rangeBins (p : Profile) :
    binned p.exactBins + binned p.rangeBins = binned p.bins :=
  sumOf_map_filter_add Bin.frequency _ p.bins

/-- **The total is the sum of all frequencies**, and it has 64 bits. -/
theorem total_of_attempt (h : (attempt k c).result = .ok p) :
    p.total = binned p.bins ∧ p.total < 18446744073709551616 := by
  obtain ⟨s, rfl⟩ := exists_histogram_of_attempt h
  exact ⟨(binned_map_ofBucket s.buckets).symm, s.valid.total_lt⟩

/-! ## Shares -/

/-- The share of a number of rows, not rounded. -/
def fraction (p : Profile) (n : ℕ) : ℚ := n / p.rows

theorem sum_fraction (p : Profile) (bs : List Bin) :
    (bs.map fun b => p.fraction b.frequency).sum = p.fraction (binned bs) := by
  induction bs with
  | nil => simp [fraction, binned]
  | cons b bs ih =>
    rw [List.map_cons, List.sum_cons, ih]
    simp only [fraction, binned, List.map_cons, sumOf_cons]
    rw [Nat.cast_add, add_div]

/-- All shares that a distribution file gives, not rounded. -/
def shareSum (p : Profile) : ℚ :=
  ((p.exactBins ++ p.rangeBins).map fun b => p.fraction b.frequency).sum +
    p.fraction p.nulls.toNat

theorem shareSum_eq (p : Profile) :
    p.shareSum = ((binned p.bins + p.nulls.toNat : ℕ) : ℚ) / p.rows := by
  rw [shareSum, sum_fraction, ← binned_exactBins_add_rangeBins, binned, List.map_append,
    sumOf_append, fraction, fraction, ← add_div, ← Nat.cast_add]
  rfl

/-- **The shares of a column account for every row** exactly where its rows, those without a value
included, have 64 bits together: then they sum to one.  Otherwise the number of rows is cut off, and
they sum to more. -/
theorem shares_of_attempt (h : (attempt k c).result = .ok p) :
    p.total = binned p.bins ∧ p.nulls = c.nulls ∧
    (p.rows = binned p.bins + p.nulls.toNat ↔
      p.total + p.nulls.toNat < 18446744073709551616) ∧
    (p.rows ≠ 0 → (p.shareSum = 1 ↔ p.total + p.nulls.toNat < 18446744073709551616)) ∧
    (18446744073709551616 ≤ p.total + p.nulls.toNat →
      p.rows = 18446744073709551615 ∧ 1 < p.shareSum) := by
  obtain ⟨htotal, _⟩ := total_of_attempt h
  obtain ⟨s, hs⟩ := exists_histogram_of_attempt h
  have hrows : p.rows = min (binned p.bins + p.nulls.toNat) 18446744073709551615 := by
    rw [rows, htotal]
  rw [htotal, shareSum_eq]
  refine ⟨rfl, hs ▸ rfl, by omega, fun hne => ?_, fun hle => ⟨by omega, ?_⟩⟩
  · rw [div_eq_one_iff_eq (Nat.cast_ne_zero.2 hne), Nat.cast_inj]
    omega
  · rw [one_lt_div (Nat.cast_pos.2 (by omega)), Nat.cast_lt]
    omega

/-! ## Columns of a single value -/

/-- The column whose rows all hold the value 1 or none. -/
def onesOrNulls (count nulls : UInt64) : Column where
  name := ⟨"s", "t", "c"⟩
  type := ⟨"INTEGER", 8, 0⟩
  reportedMin := none
  cardinality := 1
  nulls := nulls
  quantiles := []
  frequentValues := [⟨"1", count⟩]

/-- The profile of such a column. -/
def profileOfOnes (count nulls : UInt64) : Profile where
  column := ⟨"s", "t", "c"⟩
  domain := "integer"
  cardinality := 1
  nulls := nulls
  total := count.toNat
  bins := [⟨"1", "1", count.toNat, true⟩]

/-- **It has a profile** with a single exact bin. -/
theorem attempt_onesOrNulls (count nulls : UInt64) :
    (attempt .integer (onesOrNulls count nulls)).result = .ok (profileOfOnes count nulls) := by
  let one : Whole := ⟨1, by decide, by decide⟩
  have hread : Literal.read .integer "1" = .ok one := by rfl
  have htallies : tallies .integer (onesOrNulls count nulls) = .ok [⟨one, count⟩] := by
    refine mapM_eq_ok_iff.2 (.cons ?_ .nil)
    rw [readValue_of_ok hread]
    rfl
  have hvalid : Histogram.Valid Kind.integer.domain [.single one count.toNat] := by
    refine ⟨List.forall_mem_singleton.2 Domain.le_refl, List.pairwise_singleton _ _, ?_⟩
    exact count.toNat_lt
  have hsorted : Histogram.sorted Kind.integer.domain [⟨one, count⟩] = [⟨one, count⟩] :=
    List.mergeSort_singleton _
  have hbuckets : Histogram.ofTallies Kind.integer.domain [⟨one, count⟩] = .ok ⟨_, hvalid⟩ := by
    rw [Histogram.ofTallies, Histogram.distinct, hsorted]
    exact Histogram.ofBuckets_of_valid hvalid
  rw [attempt, htallies]
  change (ofColumn _ (Histogram.ofTallies Kind.integer.domain [⟨one, count⟩])).map _ = _
  rw [hbuckets]
  rfl

/-- Three quarters of the rows hold the value: all shares sum to one. -/
theorem shares_of_attempt_quarters :
    (attempt .integer (onesOrNulls 3 1)).result = .ok (profileOfOnes 3 1) ∧
      (profileOfOnes 3 1).rows = 4 ∧ (profileOfOnes 3 1).shareSum = 1 := by
  have hshares := shares_of_attempt (attempt_onesOrNulls 3 1)
  exact ⟨attempt_onesOrNulls 3 1, rfl, (hshares.2.2.2.1 (by decide)).2 (by decide)⟩

/-- Where the value and its absence both have as many rows as 64 bits can count, the number of rows
is not their sum, and the shares sum to two. -/
theorem shareSum_ne_one_of_attempt : ∃ c p,
    (attempt .integer c).result = .ok p ∧ p.rows ≠ 0 ∧
      p.rows ≠ binned p.bins + p.nulls.toNat ∧ p.shareSum = 2 := by
  refine ⟨onesOrNulls 18446744073709551615 18446744073709551615, _, attempt_onesOrNulls _ _,
    by decide, by decide, ?_⟩
  have hsum : binned (profileOfOnes 18446744073709551615 18446744073709551615).bins +
      (profileOfOnes 18446744073709551615 18446744073709551615).nulls.toNat =
      2 * (profileOfOnes 18446744073709551615 18446744073709551615).rows := by rfl
  rw [shareSum_eq, hsum, Nat.cast_mul, mul_div_cancel_right₀ _ (Nat.cast_ne_zero.2 (by decide))]
  rfl

end CatalogStats.Profile
