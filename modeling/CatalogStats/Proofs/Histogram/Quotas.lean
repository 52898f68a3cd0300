import CatalogStats.Proofs.Histogram.Rounds
import Mathlib.Algebra.Order.AbsoluteValue.Basic
import Mathlib.Algebra.Order.Field.Rat
import Mathlib.Tactic.Linarith

/-!
# Proofs/Histogram/Quotas — shares within one unit of their quotas

Where no product has more than 128 bits, every quota is exact, and the whole parts of the quotas leave
fewer units over than there are quotas with a remainder (`Exact.leftover_cases`).  In double precision
no positive remainder is rounded to zero, so the places with a remainder come first in the order of
handing out, whatever else is rounded.  Hence each place receives at most one unit, and none if its
quota is a whole number (`Exact.followsQuota`).
-/

namespace CatalogStats.Allotment

variable {total sum weight share i : ℕ} {weights : List ℕ} {a b c : Binary64 × ℕ}

/-! ## The order of the remainders -/

theorem precedes_iff : precedes a b = true ↔
    a.1.compare b.1 = .gt ∨ a.1.compare b.1 = .eq ∧ a.2 ≤ b.2 := by
  rw [precedes]
  cases a.1.compare b.1 <;> simp

theorem precedes_trans (hab : precedes a b = true) (hbc : precedes b c = true) :
    precedes a c = true := by
  rw [precedes_iff] at *
  obtain hab | ⟨hab, hle⟩ := hab <;> obtain hbc | ⟨hbc, hle'⟩ := hbc
  · exact .inl (Std.TransCmp.gt_trans hab hbc)
  · exact .inl (Std.TransCmp.congr_right hbc ▸ hab)
  · exact .inl (Std.TransCmp.congr_left hab ▸ hbc)
  · exact .inr ⟨Std.TransCmp.eq_trans hab hbc, hle.trans hle'⟩

theorem precedes_total (a b : Binary64 × ℕ) : (precedes a b || precedes b a) = true := by
  have hswap : b.1.compare a.1 = (a.1.compare b.1).swap := Std.OrientedCmp.eq_swap
  rw [Bool.or_eq_true, precedes_iff, precedes_iff, hswap]
  cases a.1.compare b.1 with
  | lt => simp
  | gt => simp
  | eq => simpa using Nat.le_total a.2 b.2

/-- **Places receive in the order of their remainders.** -/
theorem pairwise_order (weights : List ℕ) (remainders : List Binary64) :
    (order weights remainders).Pairwise fun i j =>
      precedes (remainders.getD i .zero, i) (remainders.getD j .zero, j) = true := by
  refine List.Pairwise.filter _ (List.pairwise_map.2 ?_)
  have hmem : ∀ p ∈ remainders.zipIdx.mergeSort precedes,
      p = (remainders.getD p.2 .zero, p.2) := by
    intro p hp
    have hget := List.mem_zipIdx_iff_getElem?.1 ((List.mergeSort_perm _ _).mem_iff.1 hp)
    rw [List.getD_eq_getElem?_getD, hget]
    rfl
  have hsorted : (remainders.zipIdx.mergeSort precedes).Pairwise fun p q =>
      precedes p q = true :=
    List.pairwise_mergeSort (fun a b c => @precedes_trans a b c) precedes_total _
  refine hsorted.imp_of_mem fun hp hq hpq => ?_
  rwa [← hmem _ hp, ← hmem _ hq]

/-! ## Exact quotas -/

/-- The remainder of the quota at a place. -/
def remainderAt (total : ℕ) (weights : List ℕ) (i : ℕ) : ℕ :=
  total * weights.getD i 0 % sumOf weights

/-- **Weights whose quotas are exact**: their sum is that of 128 bits, and so is every product with the
total. -/
structure Exact (total : ℕ) (weights : List ℕ) : Prop where
  sum_pos : 0 < sumOf weights
  sum_lt : sumOf weights < 340282366920938463463374607431768211456
  product_lt : ∀ w ∈ weights, total * w < 340282366920938463463374607431768211456

namespace Exact

variable (h : Exact total weights)
include h

theorem weightSum_eq : weightSum weights = sumOf weights := by
  have := h.sum_lt
  rw [weightSum]
  omega

/-- **No quota is computed in double precision.** -/
theorem quota_eq (hw : weight ∈ weights) : quota total (weightSum weights) weight =
    ⟨total * weight / sumOf weights,
      .quotient (total * weight % sumOf weights) (sumOf weights)⟩ := by
  rw [quota, if_pos (h.product_lt weight hw), h.weightSum_eq]

theorem map_quota {α : Type} (f : Quota → α) :
    (weights.map (quota total (weightSum weights))).map f =
      weights.map fun w => f ⟨total * w / sumOf weights,
        .quotient (total * w % sumOf weights) (sumOf weights)⟩ := by
  rw [List.map_map]
  exact List.map_congr_left fun w hw => congrArg f (h.quota_eq hw)

end Exact

/-- Division with remainder, summed over the weights. -/
theorem sumOf_div_add_mod (total sum : ℕ) (weights : List ℕ) :
    sum * sumOf (weights.map (total * · / sum)) + sumOf (weights.map (total * · % sum)) =
      total * sumOf weights := by
  induction weights with
  | nil => rfl
  | cons w ws ih =>
    have hw := Nat.div_add_mod (total * w) sum
    rw [List.map_cons, List.map_cons, sumOf_cons, sumOf_cons, sumOf_cons, Nat.mul_add, Nat.mul_add]
    omega

/-- Remainders below a bound, of which only some are positive. -/
theorem sumOf_map_le_countP {f : ℕ → ℕ} {c : ℕ} (hf : ∀ n, f n ≤ c) (ns : List ℕ) :
    sumOf (ns.map f) ≤ ns.countP (0 < f ·) * c := by
  rw [← sumOf_map_ite]
  refine sumOf_map_le fun n _ => ?_
  by_cases hpos : 0 < f n
  · rw [if_pos (decide_eq_true hpos)]
    exact hf n
  · exact (Nat.eq_zero_of_not_pos hpos).trans_le (Nat.zero_le _)

/-- Counting the members of a list by their places. -/
theorem countP_range_getD (p : ℕ → Bool) (ns : List ℕ) :
    (List.range ns.length).countP (fun i => p (ns.getD i 0)) = ns.countP p := by
  have hns : (List.range ns.length).map (ns.getD · 0) = ns := by
    refine List.ext_getElem (by simp) fun i _ hi => ?_
    rw [List.getElem_map, List.getElem_range, List.getD_eq_getElem?_getD,
      List.getElem?_eq_getElem hi, Option.getD_some]
  calc (List.range ns.length).countP (fun i => p (ns.getD i 0))
      = ((List.range ns.length).map (ns.getD · 0)).countP p := List.countP_map.symm
    _ = ns.countP p := by rw [hns]

/-- The places with a remainder, in the order in which they receive. -/
theorem length_filter_order :
    ((order weights (quotaRemainders total weights)).filter
      fun i => 0 < remainderAt total weights i).length =
      weights.countP (0 < total * · % sumOf weights) := by
  have hperm := (order_perm weights (quotaRemainders total weights)).filter
    fun i => decide (0 < remainderAt total weights i)
  -- A remainder is positive only where the weight is.
  have hboth : ∀ i, (decide (0 < remainderAt total weights i) && decide (0 < weights.getD i 0)) =
      decide (0 < total * weights.getD i 0 % sumOf weights) := by
    intro i
    obtain hw | hw := Nat.eq_zero_or_pos (weights.getD i 0)
    · rw [remainderAt, hw]
      simp
    · rw [decide_eq_true hw, Bool.and_true, remainderAt]
  simp only [hperm.length_eq, List.filter_filter, length_quotaRemainders, hboth,
    ← List.countP_eq_length_filter]
  exact countP_range_getD (0 < total * · % sumOf weights) weights

/-- **The places that are served**: those that come first, one for each unit left over. -/
def served (total : ℕ) (weights : List ℕ) : List ℕ :=
  (order weights (quotaRemainders total weights)).take (total - sumOf (wholeShares total weights))

namespace Exact

variable (h : Exact total weights)
include h

theorem sumOf_floors_le : sumOf (weights.map (total * · / sumOf weights)) ≤ total := by
  have hsum := sumOf_div_add_mod total (sumOf weights) weights
  refine Nat.le_of_mul_le_mul_left ?_ h.sum_pos
  rw [Nat.mul_comm (sumOf weights) total]
  omega

/-- **Nothing is trimmed.** -/
theorem wholeShares_eq : wholeShares total weights = weights.map (total * · / sumOf weights) := by
  have hle := h.sumOf_floors_le
  rw [wholeShares, h.map_quota, trimmed, Nat.sub_eq_zero_of_le hle, trim_zero, List.reverse_reverse]

/-- **Fewer units are left over than there are positive remainders**, if any. -/
theorem leftover_cases : total - sumOf (wholeShares total weights) = 0 ∨
    total - sumOf (wholeShares total weights) <
      weights.countP (0 < total * · % sumOf weights) := by
  have hpos := h.sum_pos
  have hsum := sumOf_div_add_mod total (sumOf weights) weights
  have hrem := sumOf_map_le_countP (f := (total * · % sumOf weights)) (c := sumOf weights - 1)
    (fun w => Nat.le_sub_one_of_lt (Nat.mod_lt _ hpos)) weights
  rw [h.wholeShares_eq]
  generalize sumOf (weights.map (total * · / sumOf weights)) = floors at *
  generalize weights.countP (0 < total * · % sumOf weights) = count at *
  have hleft : sumOf weights * (total - floors) + count ≤ sumOf weights * count + 0 := by
    rw [Nat.mul_sub, Nat.mul_comm (sumOf weights) total]
    rw [Nat.mul_sub_one, Nat.mul_comm count] at hrem
    have := Nat.le_mul_of_pos_left count hpos
    omega
  obtain rfl | hcount := Nat.eq_zero_or_pos count
  · exact .inl ((Nat.mul_eq_zero.1 (Nat.le_zero.1 hleft)).resolve_left hpos.ne')
  · exact .inr (Nat.lt_of_mul_lt_mul_left (a := sumOf weights) (by omega))

/-- The remainder at a place, as it is compared. -/
theorem getD_quotaRemainders (i : ℕ) : (quotaRemainders total weights).getD i .zero =
    .quotient (remainderAt total weights i) (sumOf weights) := by
  rw [quotaRemainders, h.map_quota, List.getD_eq_getElem?_getD, List.getElem?_map, remainderAt,
    List.getD_eq_getElem?_getD]
  cases weights[i]? with
  | some w => rfl
  | none => exact (Binary64.quotient_zero _).symm

/-- **A place with a remainder receives before any without one.** -/
theorem remainder_pos_of_precedes {j : ℕ}
    (hij : precedes ((quotaRemainders total weights).getD i .zero, i)
      ((quotaRemainders total weights).getD j .zero, j) = true)
    (hj : 0 < remainderAt total weights j) : 0 < remainderAt total weights i := by
  by_contra hi
  have hlt : remainderAt total weights j < twoTo 128 := (Nat.mod_lt _ h.sum_pos).trans h.sum_lt
  have hzero := Binary64.zero_lt_quotient hj h.sum_pos hlt h.sum_lt
  rw [h.getD_quotaRemainders, h.getD_quotaRemainders, Nat.eq_zero_of_not_pos hi,
    Binary64.quotient_zero, precedes_iff, hzero] at hij
  obtain hij | ⟨hij, _⟩ := hij <;> cases hij

/-- **A place that is served has a remainder**, and each is served once. -/
theorem served_spec : (∀ i ∈ served total weights, 0 < remainderAt total weights i) ∧
    ∀ i, received (total - sumOf (wholeShares total weights))
      (order weights (quotaRemainders total weights)) i =
        if i ∈ served total weights then 1 else 0 := by
  have hcases := h.leftover_cases
  rw [← length_filter_order] at hcases
  have hordered : (order weights (quotaRemainders total weights)).Pairwise fun i j =>
      decide (0 < remainderAt total weights j) = true →
        decide (0 < remainderAt total weights i) = true :=
    (pairwise_order weights (quotaRemainders total weights)).imp fun hij => by
      simpa using h.remainder_pos_of_precedes hij
  have hfirst := takeWhile_eq_filter hordered
  rw [served]
  generalize total - sumOf (wholeShares total weights) = leftover at *
  generalize order weights (quotaRemainders total weights) = places at *
  obtain rfl | hlt := hcases
  · simp [received]
  rw [← hfirst] at hlt
  have hprefix := List.takeWhile_prefix (l := places) fun i => decide (0 < remainderAt total weights i)
  have hlen := hlt.trans_le hprefix.length_le
  constructor
  · intro i hi
    obtain ⟨rest, hrest⟩ := hprefix
    rw [← hrest, List.take_append_of_le_length hlt.le] at hi
    simpa using List.mem_takeWhile_imp (List.mem_of_mem_take hi)
  · intro i
    rw [received, Nat.div_eq_of_lt hlen, Nat.mod_eq_of_lt hlen, ite_self, Nat.zero_add]

/-- **The shares**: the whole parts, and one unit more at every place that is served. -/
theorem getElem?_shares (i : ℕ) : (shares total weights)[i]? = weights[i]?.map fun w =>
    total * w / sumOf weights + if i ∈ served total weights then 1 else 0 := by
  have hne : weightSum weights ≠ 0 := h.weightSum_eq.trans_ne h.sum_pos.ne'
  rw [shares_eq_handOut hne, getElem?_handOut, h.served_spec.2, h.wholeShares_eq,
    List.getElem?_map, Option.map_map]
  rfl

end Exact

/-! ## The quota rule -/

/-- **A share that follows its quota**: rounded down, or up if there is something to round. -/
structure FollowsQuota (total sum weight share : ℕ) : Prop where
  floor_or_succ : share = total * weight / sum ∨
    share = total * weight / sum + 1 ∧ ¬ sum ∣ total * weight
  near : |(share : ℚ) - total * weight / sum| < 1

theorem followsQuota_iff (hsum : 0 < sum) : FollowsQuota total sum weight share ↔
    share = total * weight / sum ∨ share = total * weight / sum + 1 ∧ ¬ sum ∣ total * weight := by
  refine ⟨FollowsQuota.floor_or_succ, fun h => ⟨h, ?_⟩⟩
  have hdiv := Nat.div_add_mod (total * weight) sum
  have hmod := Nat.mod_lt (total * weight) hsum
  have hpos : (0 : ℚ) < sum := Nat.cast_pos.2 hsum
  have hnear : share * sum < total * weight + sum ∧ total * weight < share * sum + sum := by
    obtain rfl | ⟨rfl, hdvd⟩ := h
    · rw [Nat.mul_comm _ sum]
      omega
    · rw [Nat.dvd_iff_mod_eq_zero] at hdvd
      rw [Nat.add_one_mul, Nat.mul_comm _ sum]
      omega
  obtain ⟨habove, hbelow⟩ := hnear
  have habove : (share : ℚ) * sum < total * weight + sum := by exact_mod_cast habove
  have hbelow : (total * weight : ℚ) < share * sum + sum := by exact_mod_cast hbelow
  rw [abs_lt]
  constructor
  · rw [neg_lt_sub_iff_lt_add, div_lt_iff₀ hpos]
    linarith
  · rw [sub_lt_iff_lt_add, ← sub_lt_iff_lt_add', lt_div_iff₀ hpos]
    linarith

/-- **Where the quotas are exact the shares follow them.** -/
theorem Exact.followsQuota (h : Exact total weights) :
    List.Forall₂ (FollowsQuota total (sumOf weights)) weights (shares total weights) := by
  refine List.forall₂_iff_get.2 ⟨(length_shares _ _).symm, fun i hi hi' => ?_⟩
  rw [followsQuota_iff h.sum_pos, List.get_eq_getElem, List.get_eq_getElem]
  have hshare := h.getElem?_shares i
  rw [List.getElem?_eq_getElem hi, Option.map_some] at hshare
  rw [(List.getElem?_eq_some_iff.1 hshare).2]
  split
  case isFalse => exact .inl (Nat.add_zero _)
  case isTrue hserved =>
    refine .inr ⟨rfl, fun hdvd => ?_⟩
    have hrem := h.served_spec.1 i hserved
    rw [remainderAt, List.getD_eq_getElem?_getD, List.getElem?_eq_getElem hi, Option.getD_some,
      Nat.mod_eq_zero_of_dvd hdvd] at hrem
    exact Nat.lt_irrefl 0 hrem

end CatalogStats.Allotment
