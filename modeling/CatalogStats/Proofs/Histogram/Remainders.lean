import CatalogStats.Proofs.Histogram.Quotas
import CatalogStats.Proofs.Number.Rounding

/-!
# Proofs/Histogram/Remainders — which remainders are rounded up

What the whole parts of the quotas leave over should go to the largest remainders, and of equal ones to
the earliest (`LargestRemainder`).  Remainders are compared in double precision, which keeps their order
but may let two of them fall together.  So the law holds unless what is left over runs out between two
such places, and always for weights that sum to less than `2 ^ 53` (`largestRemainder_iff`).
-/

namespace CatalogStats.Allotment

variable {total i j : ℕ} {weights : List ℕ}

/-! ## The law -/

/-- A place whose share is above the whole part of its quota. -/
def RoundedUp (total : ℕ) (weights : List ℕ) (i : ℕ) : Prop :=
  total * weights.getD i 0 / sumOf weights < (shares total weights).getD i 0

/-- **The law of the largest remainder**: a unit goes to a greater remainder before a smaller one, and
of equal ones to the earlier place.  No weight receives less than a smaller one. -/
structure LargestRemainder (total : ℕ) (weights : List ℕ) : Prop where
  before : ∀ i j, RoundedUp total weights i → ¬ RoundedUp total weights j →
    0 < remainderAt total weights j → remainderAt total weights j < remainderAt total weights i ∨
      remainderAt total weights j = remainderAt total weights i ∧ i < j
  mono : ∀ i j, weights.getD i 0 < weights.getD j 0 →
    (shares total weights).getD i 0 ≤ (shares total weights).getD j 0

/-- The remainder at a place as a part of the sum, in double precision. -/
def roundedAt (total : ℕ) (weights : List ℕ) (i : ℕ) : Binary64 :=
  .quotient (remainderAt total weights i) (sumOf weights)

/-- Whether a place comes before another when remainders are compared in double precision. -/
def comesBefore (total : ℕ) (weights : List ℕ) (j i : ℕ) : Bool :=
  j != i && precedes (roundedAt total weights j, j) (roundedAt total weights i, i)

/-- How many places come before a place. -/
def rank (total : ℕ) (weights : List ℕ) (i : ℕ) : ℕ :=
  (List.range weights.length).countP (comesBefore total weights · i)

/-- The units that the whole parts of the quotas leave over. -/
def unitsLeft (total : ℕ) (weights : List ℕ) : ℕ :=
  total - sumOf (weights.map (total * · / sumOf weights))

/-- **What is left over runs out inside a tie**: between two places whose remainders fall together in
double precision, although the later one has the greater remainder. -/
def SplitsTie (total : ℕ) (weights : List ℕ) : Prop :=
  ∃ i j, i < j ∧ remainderAt total weights i < remainderAt total weights j ∧
    roundedAt total weights i = roundedAt total weights j ∧
    rank total weights i < unitsLeft total weights ∧ unitsLeft total weights ≤ rank total weights j

/-! ## Places and ranks -/

theorem comesBefore_iff : comesBefore total weights j i = true ↔
    (roundedAt total weights j).compare (roundedAt total weights i) = .gt ∨
      roundedAt total weights j = roundedAt total weights i ∧ j < i := by
  rw [comesBefore, Bool.and_eq_true, bne_iff_ne, precedes_iff]
  constructor
  · rintro ⟨hne, hgt | ⟨heq, hle⟩⟩
    · exact .inl hgt
    · exact .inr ⟨Binary64.eq_of_compare heq, Nat.lt_of_le_of_ne hle hne⟩
  · rintro (hgt | ⟨heq, hlt⟩)
    · refine ⟨fun hji => ?_, .inl hgt⟩
      rw [hji, Binary64.compare_self] at hgt
      cases hgt
    · exact ⟨hlt.ne, .inr ⟨heq ▸ Binary64.compare_self _, hlt.le⟩⟩

theorem comesBefore_self (total : ℕ) (weights : List ℕ) (i : ℕ) :
    comesBefore total weights i i = false := by
  rw [comesBefore, bne_self_eq_false, Bool.false_and]

theorem comesBefore_asymm (h : comesBefore total weights j i = true) :
    comesBefore total weights i j = false := by
  refine Bool.eq_false_iff.2 fun h' => ?_
  obtain hgt | ⟨heq, hlt⟩ := comesBefore_iff.1 h <;>
    obtain hgt' | ⟨heq', hlt'⟩ := comesBefore_iff.1 h'
  · cases hgt.symm.trans (Std.OrientedCmp.gt_iff_lt.1 hgt')
  · rw [heq', Binary64.compare_self] at hgt
    cases hgt
  · rw [heq, Binary64.compare_self] at hgt'
    cases hgt'
  · exact Nat.lt_asymm hlt hlt'

theorem product_pos_of_remainder_pos (hi : 0 < remainderAt total weights i) :
    0 < total * weights.getD i 0 := hi.trans_le (Nat.mod_le _ _)

/-- A place with a remainder has a weight. -/
theorem weight_pos_of_remainder_pos (hi : 0 < remainderAt total weights i) :
    0 < weights.getD i 0 :=
  Nat.pos_of_ne_zero (right_ne_zero_of_mul (product_pos_of_remainder_pos hi).ne')

theorem lt_length_of_remainder_pos (hi : 0 < remainderAt total weights i) :
    i < weights.length := by
  refine Nat.lt_of_not_le fun hle => ?_
  have hw := weight_pos_of_remainder_pos hi
  rw [List.getD_eq_getElem?_getD, List.getElem?_eq_none hle] at hw
  exact Nat.lt_irrefl 0 hw

theorem mem_order_of_remainder_pos (hi : 0 < remainderAt total weights i) :
    i ∈ order weights (quotaRemainders total weights) :=
  mem_order.2 ⟨length_quotaRemainders total weights ▸ lt_length_of_remainder_pos hi,
    weight_pos_of_remainder_pos hi⟩

/-- With one whole part, the greater weight has the greater remainder. -/
theorem remainder_lt_of_floor_eq (htotal : 0 < total) (hij : weights.getD i 0 < weights.getD j 0)
    (heq : total * weights.getD i 0 / sumOf weights = total * weights.getD j 0 / sumOf weights) :
    remainderAt total weights i < remainderAt total weights j := by
  have hi := Nat.div_add_mod (total * weights.getD i 0) (sumOf weights)
  have hj := Nat.div_add_mod (total * weights.getD j 0) (sumOf weights)
  have hmul := Nat.mul_lt_mul_of_pos_left hij htotal
  rw [heq] at hi
  rw [remainderAt, remainderAt]
  omega

namespace Exact

variable (h : Exact total weights)
include h

/-- The places are handed out in their order. -/
theorem pairwise_comesBefore : (order weights (quotaRemainders total weights)).Pairwise fun j i =>
    comesBefore total weights j i = true := by
  refine ((pairwise_order weights (quotaRemainders total weights)).and nodup_order).imp ?_
  rintro j i ⟨hji, hne⟩
  rw [h.getD_quotaRemainders, h.getD_quotaRemainders] at hji
  exact Bool.and_eq_true_iff.2 ⟨bne_iff_ne.2 hne, hji⟩

/-- Only places with a remainder come before one. -/
theorem remainder_pos_of_comesBefore (hji : comesBefore total weights j i = true)
    (hi : 0 < remainderAt total weights i) : 0 < remainderAt total weights j := by
  refine h.remainder_pos_of_precedes (j := i) ?_ hi
  rw [h.getD_quotaRemainders, h.getD_quotaRemainders]
  exact (Bool.and_eq_true_iff.1 hji).2

/-- The rank of a place with a remainder counts the places that receive before it. -/
theorem countP_order (hi : 0 < remainderAt total weights i) :
    (order weights (quotaRemainders total weights)).countP (comesBefore total weights · i) =
      rank total weights i := by
  rw [(order_perm weights (quotaRemainders total weights)).countP_eq, length_quotaRemainders,
    List.countP_filter, rank]
  refine List.countP_congr fun j _ => ?_
  rw [Bool.and_eq_true, and_iff_left_iff_imp, decide_eq_true_eq]
  exact fun hji => weight_pos_of_remainder_pos (h.remainder_pos_of_comesBefore hji hi)

/-- **A place with a remainder is served** if fewer places come before it than units are left. -/
theorem mem_served_iff : i ∈ served total weights ↔
    0 < remainderAt total weights i ∧ rank total weights i < unitsLeft total weights := by
  rw [← and_iff_right_of_imp (h.served_spec.1 i)]
  refine and_congr_right fun hi => ?_
  have hstrict := h.pairwise_comesBefore.imp fun hji => And.intro hji (comesBefore_asymm hji)
  rw [served, mem_take_iff_countP_lt (comesBefore_self total weights) hstrict
    (mem_order_of_remainder_pos hi), h.countP_order hi, h.wholeShares_eq, unitsLeft]

/-! ## Shares -/

theorem getD_shares (i : ℕ) : (shares total weights).getD i 0 =
    total * weights.getD i 0 / sumOf weights + if i ∈ served total weights then 1 else 0 := by
  rw [List.getD_eq_getElem?_getD, List.getD_eq_getElem?_getD, h.getElem?_shares]
  cases hw : weights[i]? with
  | some w => rfl
  | none =>
    have hnot : i ∉ served total weights := fun hi => by
      have hlt := lt_length_of_remainder_pos (h.served_spec.1 i hi)
      rw [List.getElem?_eq_getElem hlt] at hw
      cases hw
    simp [hnot]

/-- **The shares by rank**, without the order of handing out. -/
theorem shares_eq : shares total weights = (List.range weights.length).map fun i =>
    total * weights.getD i 0 / sumOf weights + if 0 < remainderAt total weights i ∧
      rank total weights i < unitsLeft total weights then 1 else 0 := by
  refine List.ext_getElem (by rw [length_shares, List.length_map, List.length_range])
    fun i hi _ => ?_
  rw [List.getElem_map, List.getElem_range, ← if_congr h.mem_served_iff rfl rfl, ← h.getD_shares,
    List.getD_eq_getElem?_getD, List.getElem?_eq_getElem hi, Option.getD_some]

/-- **The places that are served are rounded up.** -/
theorem roundedUp_iff : RoundedUp total weights i ↔ i ∈ served total weights := by
  rw [RoundedUp, h.getD_shares]
  split <;> simp [*]

/-- **A place that is rounded up comes before one that is not**, although that has a remainder. -/
theorem comesBefore_of_roundedUp (hi : RoundedUp total weights i) (hj : ¬ RoundedUp total weights j)
    (hpos : 0 < remainderAt total weights j) : comesBefore total weights i j = true := by
  rw [h.roundedUp_iff, served] at hi hj
  have hsplit := h.pairwise_comesBefore
  have hmem := mem_order_of_remainder_pos hpos
  rw [← List.take_append_drop (total - sumOf (wholeShares total weights))
    (order weights (quotaRemainders total weights))] at hsplit hmem
  have hlater := (List.mem_append.1 hmem).resolve_left hj
  exact (List.pairwise_append.1 hsplit).2.2 i hi j hlater

/-- **A remainder that comes before another is greater**, unless the two fall together. -/
theorem remainder_lt_of_comesBefore (hij : comesBefore total weights i j = true)
    (hj : 0 < remainderAt total weights j) :
    remainderAt total weights j < remainderAt total weights i ∨
      roundedAt total weights i = roundedAt total weights j ∧ i < j := by
  have hi := h.remainder_pos_of_comesBefore hij hj
  refine (comesBefore_iff.1 hij).imp_left fun hgt => Nat.lt_of_not_le fun hle => ?_
  have hlt : (roundedAt total weights j).value < (roundedAt total weights i).value :=
    Binary64.value_lt_of_compare (Binary64.normal_quotient hj h.sum_pos)
      (Binary64.normal_quotient hi h.sum_pos) (Std.OrientedCmp.gt_iff_lt.1 hgt)
  exact hlt.not_ge (Binary64.value_quotient_le h.sum_pos hle)

/-- **Below `2 ^ 53` no remainders fall together.** -/
theorem remainder_eq_of_roundedAt_eq (hsum : sumOf weights < 9007199254740992)
    (hij : roundedAt total weights i = roundedAt total weights j) :
    remainderAt total weights i = remainderAt total weights j := by
  have hlt : ∀ {i j}, remainderAt total weights i < remainderAt total weights j →
      roundedAt total weights i ≠ roundedAt total weights j := fun hlt heq =>
    (Binary64.value_quotient_lt hsum hlt (Nat.mod_lt _ h.sum_pos)).ne (congrArg Binary64.value heq)
  obtain hij' | heq | hji := Nat.lt_trichotomy (remainderAt total weights i)
    (remainderAt total weights j)
  · exact absurd hij (hlt hij')
  · exact heq
  · exact absurd hij.symm (hlt hji)

/-! ## When the law holds -/

/-- A place that falls together with one that has a remainder has one too. -/
theorem remainder_pos_of_roundedAt_eq (hsame : roundedAt total weights i = roundedAt total weights j)
    (hj : 0 < remainderAt total weights j) : 0 < remainderAt total weights i := by
  refine Nat.pos_of_ne_zero fun hzero => ?_
  have hlow := (Binary64.normal_quotient hj h.sum_pos).1
  rw [roundedAt, hzero, Binary64.quotient_zero, roundedAt] at hsame
  rw [← hsame] at hlow
  exact absurd hlow (by decide)

/-- **A tie that is split breaks the law.** -/
theorem not_splitsTie (hlaw : LargestRemainder total weights) : ¬ SplitsTie total weights := by
  rintro ⟨i, j, -, hlt, hsame, hi, hj⟩
  have hjpos : 0 < remainderAt total weights j := Nat.zero_lt_of_lt hlt
  have hipos := h.remainder_pos_of_roundedAt_eq hsame hjpos
  have hup : RoundedUp total weights i := h.roundedUp_iff.2 (h.mem_served_iff.2 ⟨hipos, hi⟩)
  have hdown : ¬ RoundedUp total weights j := fun hup =>
    Nat.not_lt.2 hj (h.mem_served_iff.1 (h.roundedUp_iff.1 hup)).2
  obtain hgt | ⟨heq, -⟩ := hlaw.before i j hup hdown hjpos
  · exact Nat.lt_asymm hlt hgt
  · exact hlt.ne' heq

/-- **Where no tie is split, the places that are rounded up have the largest remainders.** -/
theorem before_of_not_splitsTie (hsplit : ¬ SplitsTie total weights)
    (hi : RoundedUp total weights i) (hj : ¬ RoundedUp total weights j)
    (hpos : 0 < remainderAt total weights j) :
    remainderAt total weights j < remainderAt total weights i ∨
      remainderAt total weights j = remainderAt total weights i ∧ i < j := by
  have hij := h.comesBefore_of_roundedUp hi hj hpos
  obtain hgt | ⟨hsame, hlt⟩ := h.remainder_lt_of_comesBefore hij hpos
  · exact .inl hgt
  have hle : remainderAt total weights j ≤ remainderAt total weights i := by
    refine Nat.le_of_not_lt fun hless => hsplit ⟨i, j, hlt, hless, hsame, ?_, ?_⟩
    · exact (h.mem_served_iff.1 (h.roundedUp_iff.1 hi)).2
    · exact Nat.le_of_not_lt fun hrank =>
        hj (h.roundedUp_iff.2 (h.mem_served_iff.2 ⟨hpos, hrank⟩))
  exact hle.lt_or_eq.imp_right fun heq => ⟨heq, hlt⟩

/-- **Where the largest remainders are rounded up, greater weights receive no less.** -/
theorem getD_shares_le (hsplit : ¬ SplitsTie total weights)
    (hij : weights.getD i 0 < weights.getD j 0) :
    (shares total weights).getD i 0 ≤ (shares total weights).getD j 0 := by
  have hdiv := Nat.div_le_div_right (c := sumOf weights) (Nat.mul_le_mul_left total hij.le)
  rw [h.getD_shares i, h.getD_shares j]
  by_cases hi : i ∈ served total weights
  case neg =>
    rw [if_neg hi]
    exact hdiv.trans (Nat.le_add_right _ _)
  case pos =>
    rw [if_pos hi]
    obtain hlt | heq := hdiv.lt_or_eq
    · exact hlt.trans_le (Nat.le_add_right _ _)
    have hproduct := product_pos_of_remainder_pos (h.served_spec.1 i hi)
    have hlt := remainder_lt_of_floor_eq
      (Nat.pos_of_ne_zero (left_ne_zero_of_mul hproduct.ne')) hij heq
    -- The greater remainder is served if the smaller one is.
    have hj : j ∈ served total weights := by
      by_contra hj
      rw [← h.roundedUp_iff] at hi hj
      obtain hgt | ⟨heq', -⟩ := h.before_of_not_splitsTie hsplit hi hj (Nat.zero_lt_of_lt hlt)
      · exact Nat.lt_asymm hlt hgt
      · exact hlt.ne' heq'
    rw [heq, if_pos hj]

/-- **Weights below `2 ^ 53` in sum split no tie.** -/
theorem not_splitsTie_of_lt (hsum : sumOf weights < 9007199254740992) :
    ¬ SplitsTie total weights := by
  rintro ⟨i, j, -, hlt, hsame, -⟩
  exact hlt.ne (h.remainder_eq_of_roundedAt_eq hsum hsame)

end Exact

/-- **The largest remainders are rounded up exactly where what is left over splits no tie**, and so
always where the weights sum to less than `2 ^ 53`. -/
theorem largestRemainder_iff (h : Exact total weights) :
    (LargestRemainder total weights ↔ ¬ SplitsTie total weights) ∧
      (sumOf weights < 9007199254740992 → LargestRemainder total weights) := by
  have hlaw (hsplit : ¬ SplitsTie total weights) : LargestRemainder total weights :=
    ⟨fun _ _ => h.before_of_not_splitsTie hsplit, fun _ _ => h.getD_shares_le hsplit⟩
  exact ⟨⟨h.not_splitsTie, hlaw⟩, fun hsum => hlaw (h.not_splitsTie_of_lt hsum)⟩

/-- A total of 80 in the proportion of four to five. -/
theorem largestRemainder_eighty : Exact 80 [4, 5] ∧ sumOf [4, 5] < 9007199254740992 ∧
    LargestRemainder 80 [4, 5] ∧ ¬ SplitsTie 80 [4, 5] ∧ shares 80 [4, 5] = [36, 44] := by
  have h : Exact 80 [4, 5] := ⟨by decide, by decide, by decide⟩
  have hlaw := (largestRemainder_iff h).2 (by decide)
  refine ⟨h, by decide, hlaw, (largestRemainder_iff h).1.1 hlaw, ?_⟩
  rw [h.shares_eq]
  decide +kernel

/-- One unit over weights of `2 ^ 60` and one more: in double precision both remainders are a half, so
the earlier place receives, although the later one has the greater remainder. -/
theorem not_largestRemainder : Exact 1 [1152921504606846976, 1152921504606846977] ∧
    shares 1 [1152921504606846976, 1152921504606846977] = [1, 0] ∧
      ¬ LargestRemainder 1 [1152921504606846976, 1152921504606846977] := by
  have h : Exact 1 [1152921504606846976, 1152921504606846977] :=
    ⟨by decide, by decide, by decide⟩
  have hshares : shares 1 [1152921504606846976, 1152921504606846977] = [1, 0] := by
    rw [h.shares_eq]
    decide +kernel
  refine ⟨h, hshares, fun hlaw => ?_⟩
  have hle := hlaw.mono 0 1 (by decide)
  rw [hshares] at hle
  exact absurd hle (by decide)

end CatalogStats.Allotment
