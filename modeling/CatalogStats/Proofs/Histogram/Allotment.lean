import CatalogStats.Histogram.Allotment
import CatalogStats.Proofs.Preliminaries

/-!
# Proofs/Histogram/Allotment — the shares sum to the total

Trimming takes exactly the excess off the shares, and handing out in rounds gives exactly what was
left over, once some weight is positive: the places that receive are distinct.  So the shares of a
total sum to the total, whatever was rounded on the way.
-/

namespace CatalogStats

namespace Allotment

variable {total leftover : ℕ} {weights ss places : List ℕ} {remainders : List Binary64}

/-! ## Trimming -/

theorem length_trim (excess : ℕ) (ss : List ℕ) : (trim excess ss).length = ss.length := by
  induction ss generalizing excess with
  | nil => rfl
  | cons s ss ih => rw [trim, List.length_cons, ih, List.length_cons]

theorem sumOf_trim (excess : ℕ) (ss : List ℕ) : sumOf (trim excess ss) = sumOf ss - excess := by
  induction ss generalizing excess with
  | nil => rw [trim, sumOf_nil, Nat.zero_sub]
  | cons s ss ih =>
    rw [trim, sumOf_cons, ih, sumOf_cons]
    omega

theorem trim_zero (ss : List ℕ) : trim 0 ss = ss := by
  induction ss with
  | nil => rfl
  | cons s ss ih => rw [trim, Nat.sub_zero, Nat.zero_sub, ih]

/-- No more is taken off than there is. -/
theorem trim_min (excess : ℕ) (ss : List ℕ) : trim (min excess (sumOf ss)) ss = trim excess ss := by
  induction ss generalizing excess with
  | nil => rfl
  | cons s ss ih =>
    have hs : s - min excess (s + sumOf ss) = s - excess := by omega
    have hrest : min excess (s + sumOf ss) - s = min (excess - s) (sumOf ss) := by omega
    rw [sumOf_cons, trim, trim, hs, hrest, ih]

theorem trim_concat (excess : ℕ) (ss : List ℕ) (s : ℕ) :
    trim excess (ss ++ [s]) = trim excess ss ++ [s - (excess - sumOf ss)] := by
  induction ss generalizing excess with
  | nil => rfl
  | cons r ss ih => rw [List.cons_append, trim, ih, trim, List.cons_append, sumOf_cons, Nat.sub_sub]

/-- **Trimming keeps the first shares**, as far as the total goes. -/
theorem trimmed_cons (total s : ℕ) (ss : List ℕ) :
    trimmed total (s :: ss) = min s total :: trimmed (total - s) ss := by
  have hfirst : s - (s + sumOf ss - total - sumOf ss) = min s total := by omega
  have hrest : min (s + sumOf ss - total) (sumOf ss) = sumOf ss - (total - s) := by omega
  rw [trimmed, sumOf_cons, List.reverse_cons, trim_concat, sumOf_reverse, hfirst, List.reverse_concat,
    ← trim_min, sumOf_reverse, hrest, trimmed]

/-- …so what a share has above the total makes no difference. -/
theorem trimmed_map_min {bound : ℕ} (h : total ≤ bound) (ss : List ℕ) :
    trimmed total (ss.map (min · bound)) = trimmed total ss := by
  induction ss generalizing total with
  | nil => rfl
  | cons s ss ih =>
    have hfirst : min (min s bound) total = min s total := by omega
    have hrest : total - min s bound = total - s := by omega
    rw [List.map_cons, trimmed_cons, hfirst, hrest, ih (by omega), trimmed_cons]

@[simp] theorem length_trimmed (total : ℕ) (ss : List ℕ) :
    (trimmed total ss).length = ss.length := by
  rw [trimmed, List.length_reverse, length_trim, List.length_reverse]

/-- **Trimmed shares do not exceed the total**, and shares within it are kept. -/
theorem sumOf_trimmed (total : ℕ) (ss : List ℕ) :
    sumOf (trimmed total ss) = min (sumOf ss) total := by
  rw [trimmed, sumOf_reverse, sumOf_trim, sumOf_reverse]
  omega

theorem forall₂_trim_le (excess : ℕ) (ss : List ℕ) : List.Forall₂ (· ≤ ·) (trim excess ss) ss := by
  induction ss generalizing excess with
  | nil => exact .nil
  | cons s ss ih => exact .cons (Nat.sub_le _ _) (ih _)

/-- No share becomes more. -/
theorem forall₂_trimmed_le (total : ℕ) (ss : List ℕ) :
    List.Forall₂ (· ≤ ·) (trimmed total ss) ss := by
  rw [trimmed, ← List.forall₂_reverse_iff, List.reverse_reverse]
  exact forall₂_trim_le _ _

/-! ## Handing out -/

@[simp] theorem length_handOut (leftover : ℕ) (places ss : List ℕ) :
    (handOut leftover places ss).length = ss.length := by
  rw [handOut, List.length_map, List.length_zipIdx]

/-- **Handing out gives exactly what was left over** when the places are distinct and there is
one: every round gives one unit to each place, and the last round to as many as are left. -/
theorem sumOf_handOut (hne : places ≠ []) (hd : places.Nodup) (hlt : ∀ i ∈ places, i < ss.length) :
    sumOf (handOut leftover places ss) = sumOf ss + leftover := by
  set extra := places.take (leftover % places.length) with hextra
  have hrounds := sumOf_range_ite (c := leftover / places.length) hd hlt
  have hlast := sumOf_range_ite (n := ss.length) (c := 1) (hd.sublist (List.take_sublist _ _))
    fun i hi => hlt i (List.mem_of_mem_take (hextra ▸ hi))
  have hlen : extra.length = leftover % places.length := by
    rw [hextra, List.length_take]
    exact Nat.min_eq_left (Nat.mod_lt _ (List.length_pos_iff.2 hne)).le
  have hsnd : ∀ f : ℕ → ℕ, (ss.zipIdx.map fun p => f p.2) = (List.range ss.length).map f := by
    intro f
    rw [List.range_eq_range', ← List.zipIdx_map_snd 0 ss, List.map_map]
    rfl
  have hfst : (ss.zipIdx.map fun p => p.1) = ss := List.zipIdx_map_fst 0 ss
  rw [handOut, sumOf_map_add (fun p : ℕ × ℕ => p.1 + _), sumOf_map_add (fun p : ℕ × ℕ => p.1), hfst,
    hsnd fun i => if i ∈ places then _ else 0, hsnd fun i => if i ∈ extra then 1 else 0, hrounds,
    hlast, hlen, Nat.mul_one, Nat.add_assoc, Nat.div_add_mod]

/-! ## The order of handing out -/

theorem order_perm (weights : List ℕ) (remainders : List Binary64) :
    (order weights remainders).Perm
      ((List.range remainders.length).filter fun i => 0 < weights.getD i 0) := by
  have h := ((List.mergeSort_perm remainders.zipIdx precedes).map Prod.snd).filter
    fun i => decide (0 < weights.getD i 0)
  rwa [List.zipIdx_map_snd, ← List.range_eq_range'] at h

theorem nodup_order : (order weights remainders).Nodup :=
  (order_perm weights remainders).nodup_iff.2 (List.nodup_range.filter _)

theorem mem_order {i : ℕ} :
    i ∈ order weights remainders ↔ i < remainders.length ∧ 0 < weights.getD i 0 := by
  rw [(order_perm weights remainders).mem_iff, List.mem_filter, List.mem_range, decide_eq_true_eq]

/-- A positive weight receives something. -/
theorem order_ne_nil (hlen : remainders.length = weights.length) (h : ∃ w ∈ weights, 0 < w) :
    order weights remainders ≠ [] := by
  obtain ⟨w, hw, hpos⟩ := h
  obtain ⟨i, hi, hwi⟩ := List.getElem_of_mem hw
  refine List.ne_nil_of_mem (a := i) (mem_order.2 ⟨hlen ▸ hi, ?_⟩)
  rwa [List.getD_eq_getElem?_getD, List.getElem?_eq_getElem hi, hwi]

/-! ## Shares -/

theorem weightSum_eq_zero_iff : weightSum weights = 0 ↔ ∀ w ∈ weights, w = 0 := by
  rw [← sumOf_eq_zero_iff, weightSum]
  omega

theorem weightSum_ne_zero (h : ∃ w ∈ weights, 0 < w) : weightSum weights ≠ 0 := by
  obtain ⟨w, hw, hpos⟩ := h
  exact fun hsum => hpos.ne' (weightSum_eq_zero_iff.1 hsum w hw)

/-- The whole parts of the quotas, as far as they do not exceed the total. -/
def wholeShares (total : ℕ) (weights : List ℕ) : List ℕ :=
  trimmed total ((weights.map (quota total (weightSum weights))).map Quota.share)

/-- The remainders of the quotas. -/
def quotaRemainders (total : ℕ) (weights : List ℕ) : List Binary64 :=
  (weights.map (quota total (weightSum weights))).map Quota.remainder

@[simp] theorem length_wholeShares (total : ℕ) (weights : List ℕ) :
    (wholeShares total weights).length = weights.length := by
  rw [wholeShares, length_trimmed, List.length_map, List.length_map]

@[simp] theorem length_quotaRemainders (total : ℕ) (weights : List ℕ) :
    (quotaRemainders total weights).length = weights.length := by
  rw [quotaRemainders, List.length_map, List.length_map]

theorem sumOf_wholeShares_le (total : ℕ) (weights : List ℕ) :
    sumOf (wholeShares total weights) ≤ total := by
  rw [wholeShares, sumOf_trimmed]
  exact Nat.min_le_right _ _

/-- **The shares are the whole parts, and what is left over in rounds.** -/
theorem shares_eq_handOut (h : weightSum weights ≠ 0) : shares total weights =
    handOut (total - sumOf (wholeShares total weights))
      (order weights (quotaRemainders total weights)) (wholeShares total weights) := if_neg h

theorem lt_length_of_mem_order {i : ℕ} (h : i ∈ order weights (quotaRemainders total weights)) :
    i < (wholeShares total weights).length := by
  rw [length_wholeShares, ← length_quotaRemainders total]
  exact (mem_order.1 h).1

@[simp] theorem length_shares (total : ℕ) (weights : List ℕ) :
    (shares total weights).length = weights.length := by
  simp only [shares]
  split <;> simp

/-- **The shares of a total sum to the total** as soon as one weight is positive. -/
theorem sumOf_shares (h : ∃ w ∈ weights, 0 < w) : sumOf (shares total weights) = total := by
  rw [shares_eq_handOut (weightSum_ne_zero h),
    sumOf_handOut (order_ne_nil (length_quotaRemainders _ _) h) nodup_order
      fun _ => lt_length_of_mem_order]
  exact Nat.add_sub_cancel' (sumOf_wholeShares_le _ _)

end Allotment

end CatalogStats
