import CatalogStats.Proofs.Histogram.Allotment
import CatalogStats.Proofs.Number.Binary64
import Mathlib.Data.List.Rotate
import Mathlib.Data.List.TakeWhile

/-!
# Proofs/Histogram/Rounds — turn by turn, within 64 bits

The shares of a total are given in closed form.  Here they are computed step by step, as a machine with
words of 64 bits does it: every narrowing of an integer and every increment is checked, and what is
left over is handed out in turns that go around the places until nothing is left.  Handing out one unit
more is one unit more for the place whose turn it is (`handOut_succ`), so the turns end and give the
closed form (`takeTurns_eq`).

The narrowing of a whole part in double precision is not checked but saturates.  It loses a unit of a
whole part of `2 ^ 64`, which only a total has that is rounded up to it (`overfull_greatest`).  Trimming
takes off at least as much, so the shares are those that unlimited words would give
(`shares_conserved`).
-/

namespace CatalogStats.Allotment

variable {total sum weight leftover given turns i j : ℕ} {weights ss base queue places : List ℕ}
  {remainders : List Binary64}

/-! ## One unit more -/

/-- What a place has received after a number of units: one in every full round, and one more if its
turn in the last round has come. -/
def received (given : ℕ) (places : List ℕ) (i : ℕ) : ℕ :=
  (if i ∈ places then given / places.length else 0) +
    if i ∈ places.take (given % places.length) then 1 else 0

theorem getElem?_handOut (given : ℕ) (places ss : List ℕ) (i : ℕ) :
    (handOut given places ss)[i]? = ss[i]?.map (· + received given places i) := by
  simp only [handOut, List.getElem?_map, List.getElem?_zipIdx, Option.map_map, Nat.zero_add]
  exact congrArg (Option.map · _) (funext fun s => Nat.add_assoc _ _ _)

theorem received_of_not_mem (h : i ∉ places) : received given places i = 0 := by
  rw [received, if_neg h, if_neg fun hmem => h (List.mem_of_mem_take hmem)]

/-- **One unit more** is one for the place whose turn it is. -/
theorem received_succ (hd : places.Nodup) (hj : places[given % places.length]? = some j) (i : ℕ) :
    received (given + 1) places i = received given places i + if i = j then 1 else 0 := by
  obtain ⟨hlt, hget⟩ := List.getElem?_eq_some_iff.1 hj
  have hpos : 0 < places.length := by omega
  have hdiv := Nat.div_add_mod given places.length
  have htake : places.take (given % places.length + 1) =
      places.take (given % places.length) ++ [j] := by rw [List.take_add_one, hj]; rfl
  have hnot : j ∉ places.take (given % places.length) := by
    have hnd := hd.sublist (List.take_sublist (given % places.length + 1) places)
    rw [htake, List.nodup_append] at hnd
    exact fun hmem => hnd.2.2 j hmem j (List.mem_singleton_self j) rfl
  have hiff : i ∈ places.take (given % places.length + 1) ↔
      i ∈ places.take (given % places.length) ∨ i = j := by
    rw [htake, List.mem_append, List.mem_singleton]
  rw [received, received]
  generalize given % places.length = r at *
  generalize given / places.length = q at *
  by_cases hend : r + 1 = places.length
  · -- The round ends: every place has had its turn.
    obtain ⟨hq, hr⟩ := (Nat.div_mod_unique hpos (a := given + 1) (c := 0) (d := q + 1)).2
      ⟨by rw [Nat.mul_add_one]; omega, hpos⟩
    rw [hend, List.take_length] at hiff
    rw [hq, hr, List.take_zero]
    grind
  · obtain ⟨hq, hr⟩ := (Nat.div_mod_unique hpos (a := given + 1) (c := r + 1) (d := q)).2
      ⟨by omega, by omega⟩
    rw [hq, hr]
    grind

/-- …so that handing out is taking turns. -/
theorem handOut_succ (hd : places.Nodup) (hj : places[given % places.length]? = some j)
    (ss : List ℕ) :
    handOut (given + 1) places ss = (handOut given places ss).modify j (· + 1) := by
  refine List.ext_getElem? fun i => ?_
  rw [List.getElem?_modify, getElem?_handOut, getElem?_handOut, received_succ hd hj]
  cases ss[i]? with
  | none => rfl
  | some s =>
    by_cases hij : i = j
    · simp [hij, Nat.add_assoc]
    · simp [hij, Ne.symm hij]

@[simp] theorem handOut_zero (places ss : List ℕ) : handOut 0 places ss = ss := by
  refine List.ext_getElem? fun i => ?_
  rw [getElem?_handOut, received, Nat.zero_div, Nat.zero_mod, List.take_zero]
  simp

/-! ## Turns -/

/-- **Takes turns until nothing is left over.**  The place in front goes to the back, and if its weight
is positive it receives one unit.  There is no result when a share would pass 64 bits, or when `turns`
turns are not enough. -/
def takeTurns (weights : List ℕ) : ℕ → List ℕ → ℕ → List ℕ → Option (List ℕ)
  | _, _, 0, ss => some ss
  | _, [], _ + 1, ss => some ss
  | 0, _ :: _, _ + 1, _ => none
  | turns + 1, i :: queue, leftover + 1, ss =>
    if weights.getD i 0 = 0 then takeTurns weights turns (queue ++ [i]) (leftover + 1) ss
    else if ss.getD i 0 + 1 < 18446744073709551616 then
      takeTurns weights turns (queue ++ [i]) leftover (ss.modify i (· + 1))
    else none

/-- Whether a place receives anything. -/
def receives (weights : List ℕ) (i : ℕ) : Bool := 0 < weights.getD i 0

/-- The turns until the next place that receives something. -/
def waiting (weights queue : List ℕ) : ℕ := (queue.takeWhile fun i => !receives weights i).length

theorem waiting_lt (h : i ∈ queue) (hi : receives weights i = true) :
    waiting weights queue < queue.length := by
  refine Nat.lt_of_le_of_ne (List.takeWhile_prefix _).length_le fun heq => ?_
  rw [← (List.takeWhile_prefix _).eq_of_length heq] at h
  have hnot := List.mem_takeWhile_imp h
  rw [hi] at hnot
  cases hnot

theorem waiting_append (h : i ∈ queue) (hi : receives weights i = true) (l : List ℕ) :
    waiting weights (queue ++ l) = waiting weights queue := by
  rw [waiting, List.takeWhile_append, if_neg, waiting]
  exact (waiting_lt h hi).ne

/-- What a place holds after one unit more is part of the sum. -/
theorem getD_lt_sumOf_modify (h : i < ss.length) :
    ss.getD i 0 + 1 ≤ sumOf (ss.modify i (· + 1)) := by
  refine le_sumOf (List.mem_of_getElem? (i := i) ?_)
  rw [List.getElem?_modify, List.getD_eq_getElem?_getD, List.getElem?_eq_getElem h]
  simp

/-- **The queue is in turn**: the places that receive something stand in it in the order of `places`,
as it is after a number of units. -/
def InTurn (weights places : List ℕ) (given : ℕ) (queue : List ℕ) : Prop :=
  queue.filter (receives weights) = places.rotate given

/-- A place that receives nothing goes to the back. -/
theorem InTurn.pass (h : InTurn weights places given (i :: queue))
    (hi : receives weights i = false) : InTurn weights places given (queue ++ [i]) := by
  simpa [InTurn, hi] using h

/-- A place in front that receives something has its turn. -/
theorem InTurn.getElem? (h : InTurn weights places given (i :: queue))
    (hi : receives weights i = true) (hne : places ≠ []) :
    places[given % places.length]? = some i := by
  have hrotate : i :: queue.filter (receives weights) = places.rotate given := by
    simpa [InTurn, hi] using h
  rw [← List.head?_rotate (Nat.mod_lt _ (List.length_pos_iff.2 hne)), List.rotate_mod, ← hrotate]
  rfl

/-- …and goes to the back with one unit more given. -/
theorem InTurn.serve (h : InTurn weights places given (i :: queue))
    (hi : receives weights i = true) : InTurn weights places (given + 1) (queue ++ [i]) := by
  have hrotate : i :: queue.filter (receives weights) = places.rotate given := by
    simpa [InTurn, hi] using h
  rw [InTurn, ← List.rotate_rotate, ← hrotate, List.rotate_cons_succ, List.rotate_zero]
  simp [hi]

theorem InTurn.exists_mem (h : InTurn weights places given queue) (hne : places ≠ []) :
    ∃ j ∈ queue, receives weights j = true := by
  obtain ⟨j, hj⟩ := List.exists_mem_of_ne_nil (queue.filter (receives weights)) fun hnil =>
    hne (List.rotate_eq_nil_iff.1 (h ▸ hnil))
  exact ⟨j, List.mem_filter.1 hj⟩

/-- A place in front that receives nothing is one turn to wait. -/
theorem waiting_concat_add_one (h : ∃ j ∈ i :: queue, receives weights j = true)
    (hi : receives weights i = false) :
    waiting weights (queue ++ [i]) + 1 = waiting weights (i :: queue) := by
  obtain ⟨j, hj, hjr⟩ := h
  have hjq : j ∈ queue := (List.mem_cons.1 hj).resolve_left fun heq => by
    rw [← heq, hjr] at hi
    cases hi
  rw [waiting_append hjq hjr]
  simp [waiting, hi]

/-- **The turns end, and give the closed form.**  The invariant is that the queue is in turn. -/
theorem takeTurns_eq (hd : places.Nodup) (hne : places ≠ [])
    (hqueue : InTurn weights places given queue) (hlt : ∀ i ∈ places, i < ss.length)
    (hfit : sumOf ss + given + leftover < 18446744073709551616)
    (hturns : 0 < leftover → (leftover - 1) * queue.length + waiting weights queue < turns) :
    takeTurns weights turns queue leftover (handOut given places ss) =
      some (handOut (given + leftover) places ss) := by
  induction turns generalizing queue leftover given with
  | zero =>
    cases leftover with
    | zero => rw [takeTurns, Nat.add_zero]
    | succ leftover => exact absurd (hturns (Nat.succ_pos _)) (Nat.not_lt_zero _)
  | succ turns ih =>
    cases leftover with
    | zero => rw [takeTurns, Nat.add_zero]
    | succ leftover =>
    have hturns := hturns (Nat.succ_pos _)
    have hexists := hqueue.exists_mem hne
    cases queue with
    | nil => exact absurd hexists (by simp)
    | cons i queue =>
    have hlen : (queue ++ [i]).length = (i :: queue).length := by simp
    rw [takeTurns]
    cases hi : receives weights i with
    | false =>
      have hzero : weights.getD i 0 = 0 := by simpa [receives] using hi
      have hwait := waiting_concat_add_one hexists hi
      rw [if_pos hzero]
      refine ih (hqueue.pass hi) hfit fun _ => ?_
      rw [hlen]
      omega
    | true =>
      have hpos : ¬ weights.getD i 0 = 0 := by simpa [receives, Nat.pos_iff_ne_zero] using hi
      have hturn := hqueue.getElem? hi hne
      have hsucc := handOut_succ hd hturn ss
      have hroom : (handOut given places ss).getD i 0 + 1 < 18446744073709551616 := by
        have hi := hlt i (List.mem_of_getElem? hturn)
        have hle := getD_lt_sumOf_modify (hi.trans_eq (length_handOut given places ss).symm)
        rw [← hsucc, sumOf_handOut hne hd hlt] at hle
        omega
      rw [if_neg hpos, if_pos hroom, ← hsucc, ih (hqueue.serve hi) (by omega) fun hleft => ?_,
        Nat.add_assoc, Nat.add_comm 1]
      have hwait : waiting weights (queue ++ [i]) < (queue ++ [i]).length :=
        waiting_lt (List.mem_append_right _ (List.mem_singleton_self i)) hi
      obtain ⟨left, rfl⟩ := Nat.exists_eq_succ_of_ne_zero hleft.ne'
      rw [hlen] at hwait ⊢
      rw [Nat.add_sub_cancel, Nat.succ_eq_add_one, Nat.add_one_mul] at hturns
      rw [Nat.succ_eq_add_one, Nat.add_sub_cancel]
      omega

/-- The place without weight is passed over, and the turn comes back to the first. -/
example : takeTurns [1, 0, 2] 5 [1, 0, 2] 3 [0, 0, 0] = some [2, 0, 1] := by decide

/-! ## Words of 64 bits -/

/-- A number of 64 bits. -/
def narrow? (n : ℕ) : Option ℕ := if n < 18446744073709551616 then some n else none

theorem narrow?_of_lt {n : ℕ} (h : n < 18446744073709551616) : narrow? n = some n := if_pos h

/-- The whole part of a quota, before it is narrowed to a word. -/
def wholePart (total sum weight : ℕ) : ℕ :=
  if total * weight < 340282366920938463463374607431768211456 then total * weight / sum
  else min ((Binary64.ofNat total).mul (.quotient weight sum)).floor (Binary64.ofNat total).floor

/-- **The quota of a weight**, unless its whole part is an integer that does not fit.  In double
precision the whole part saturates. -/
def checkedQuota (total sum weight : ℕ) : Option Quota :=
  if total * weight < 340282366920938463463374607431768211456 then do
    let share ← narrow? (total * weight / sum)
    some ⟨share, .quotient (total * weight % sum) sum⟩
  else
    let exact := (Binary64.ofNat total).mul (.quotient weight sum)
    let whole := min exact.floor (Binary64.ofNat total).floor
    some ⟨saturated whole, exact.above whole⟩

/-- Takes an excess off the shares in front, unless a part of it does not fit. -/
def checkedTrim : ℕ → List ℕ → Option (List ℕ)
  | _, [] => some []
  | 0, ss => some ss
  | excess + 1, s :: ss => do
    let part ← narrow? (min s (excess + 1))
    let rest ← checkedTrim (excess + 1 - part) ss
    some ((s - part) :: rest)

/-- All places in the order of their remainders. -/
def ranking (remainders : List Binary64) : List ℕ :=
  (remainders.zipIdx.mergeSort precedes).map (·.2)

/-- **The shares of a total, step by step**, unless an integer does not fit or `turns` turns do not hand
out all that is left over. -/
def checkedShares (turns total : ℕ) (weights : List ℕ) : Option (List ℕ) :=
  let sum := weightSum weights
  if sum = 0 then some (weights.map fun _ => 0)
  else do
    let quotas ← weights.mapM (checkedQuota total sum)
    let base ← checkedTrim (sumOf (quotas.map Quota.share) - total)
      (quotas.map Quota.share).reverse
    takeTurns weights turns (ranking (quotas.map Quota.remainder))
      (total - sumOf base.reverse) base.reverse

/-! ## Whole parts -/

/-- An exact whole part is at most the total. -/
theorem div_weightSum_le (hw : weight ∈ weights)
    (h : total * weight < 340282366920938463463374607431768211456) :
    total * weight / weightSum weights ≤ total := by
  have hle := le_sumOf hw
  obtain hwsum | hwsum := Nat.lt_or_ge (weightSum weights) weight
  · -- A weight above the sum has more than 128 bits, so its product only fits without a total.
    obtain rfl | hpos := Nat.eq_zero_or_pos total
    · rw [Nat.zero_mul, Nat.zero_div]
    · have := Nat.le_mul_of_pos_left weight hpos
      rw [weightSum] at hwsum
      omega
  · exact Nat.div_le_of_le_mul ((Nat.mul_le_mul_left _ hwsum).trans_eq (Nat.mul_comm _ _))

/-- **A whole part of which the word loses a unit**: the total is rounded up to `2 ^ 64` in double
precision, and so is the whole part. -/
structure Overfull (total sum weight : ℕ) : Prop where
  large : 340282366920938463463374607431768211456 ≤ total * weight
  rounded : (Binary64.ofNat total).floor = 18446744073709551616
  whole : wholePart total sum weight = 18446744073709551616
  share : (quota total sum weight).share = 18446744073709551615

/-- **Every other whole part is the share**: an exact one is at most the total, and in double precision
none passes the total as it is rounded. -/
theorem narrow?_wholePart (htotal : total < 18446744073709551616) (hw : weight ∈ weights) :
    narrow? (wholePart total (weightSum weights) weight) =
        some (quota total (weightSum weights) weight).share ∨
      Overfull total (weightSum weights) weight := by
  by_cases hproduct : total * weight < 340282366920938463463374607431768211456
  · left
    rw [wholePart, quota, if_pos hproduct, if_pos hproduct]
    exact narrow?_of_lt ((div_weightSum_le hw hproduct).trans_lt htotal)
  have hfloor : (Binary64.ofNat total).floor ≤ 18446744073709551616 :=
    Binary64.floor_ofNat_le (k := 64) (by decide) htotal
  have hwhole : wholePart total (weightSum weights) weight ≤ (Binary64.ofNat total).floor := by
    rw [wholePart, if_neg hproduct]
    exact Nat.min_le_right _ _
  have hshare : (quota total (weightSum weights) weight).share =
      saturated (wholePart total (weightSum weights) weight) := by
    rw [quota, wholePart, if_neg hproduct, if_neg hproduct]
  rw [saturated] at hshare
  obtain hlt | hge := Nat.lt_or_ge (wholePart total (weightSum weights) weight) 18446744073709551616
  · left
    rw [narrow?_of_lt hlt, hshare, Nat.min_eq_left (Nat.le_of_lt_succ hlt)]
  · exact .inr ⟨Nat.not_lt.1 hproduct, by omega, by omega, by omega⟩

/-- …so the share is what a word holds of the whole part. -/
theorem share_quota (htotal : total < 18446744073709551616) (hw : weight ∈ weights) :
    (quota total (weightSum weights) weight).share =
      min (wholePart total (weightSum weights) weight) 18446744073709551615 := by
  obtain hfits | hfull := narrow?_wholePart htotal hw
  · rw [narrow?] at hfits
    split at hfits
    case isTrue hlt => exact (Option.some.inj hfits).symm.trans (Nat.min_eq_left (by omega)).symm
    case isFalse => cases hfits
  · rw [hfull.share, hfull.whole]
    rfl

theorem share_lt_of_mem (htotal : total < 18446744073709551616) {share : ℕ}
    (h : share ∈ (weights.map (quota total (weightSum weights))).map Quota.share) :
    share < 18446744073709551616 := by
  rw [List.map_map] at h
  obtain ⟨w, hw, rfl⟩ := List.mem_map.1 h
  exact (share_quota htotal hw).trans_lt (by omega)

/-- **The lost units are trimmed anyway.** -/
theorem wholeShares_eq_trimmed (htotal : total < 18446744073709551616) (weights : List ℕ) :
    wholeShares total weights = trimmed total (weights.map (wholePart total (weightSum weights))) := by
  have hshares : (weights.map (quota total (weightSum weights))).map Quota.share =
      (weights.map (wholePart total (weightSum weights))).map (min · 18446744073709551615) := by
    rw [List.map_map, List.map_map]
    exact List.map_congr_left fun w hw => share_quota htotal hw
  rw [wholeShares, hshares, trimmed_map_min (Nat.le_of_lt_succ htotal)]

/-- The shares of a total in words without a limit. -/
def unlimitedShares (total : ℕ) (weights : List ℕ) : List ℕ :=
  if weightSum weights = 0 then weights.map fun _ => 0
  else
    let base := trimmed total (weights.map (wholePart total (weightSum weights)))
    handOut (total - sumOf base) (order weights (quotaRemainders total weights)) base

theorem shares_eq_unlimitedShares (htotal : total < 18446744073709551616) (weights : List ℕ) :
    shares total weights = unlimitedShares total weights := by
  by_cases hsum : weightSum weights = 0
  · rw [shares, unlimitedShares, if_pos hsum, if_pos hsum]
  · rw [shares_eq_handOut hsum, unlimitedShares, if_neg hsum, wholeShares_eq_trimmed htotal]

/-- The whole part is `2 ^ 64`, and the share is the total all the same. -/
example : unlimitedShares 18446744073709551615 [340282366920938463463374607431768211455] =
    [18446744073709551615] := by decide +kernel

/-! ## No check fails -/

/-- **Every exact whole part fits.** -/
theorem checkedQuota_eq (htotal : total < 18446744073709551616) (hw : weight ∈ weights) :
    checkedQuota total (weightSum weights) weight =
      some (quota total (weightSum weights) weight) := by
  rw [checkedQuota, quota]
  split
  case isTrue hproduct =>
    rw [narrow?_of_lt ((div_weightSum_le hw hproduct).trans_lt htotal)]
    rfl
  case isFalse => rfl

/-- **Every part that is trimmed fits**: it is part of a share. -/
theorem checkedTrim_eq (h : ∀ s ∈ ss, s < 18446744073709551616) (excess : ℕ) :
    checkedTrim excess ss = some (trim excess ss) := by
  induction ss generalizing excess with
  | nil => cases excess <;> rfl
  | cons s ss ih =>
    obtain ⟨hs, hss⟩ := List.forall_mem_cons.1 h
    cases excess with
    | zero => rw [trim_zero]; rfl
    | succ excess =>
      have hsub : s - min s (excess + 1) = s - (excess + 1) := by omega
      have hsub' : excess + 1 - min s (excess + 1) = excess + 1 - s := by omega
      rw [checkedTrim, narrow?_of_lt (by omega), trim, ← hsub, ← hsub']
      change (checkedTrim (excess + 1 - min s (excess + 1)) ss >>= _) = _
      rw [ih hss]
      rfl

theorem mapM_eq_some {α β : Type} {f : α → Option β} {g : α → β} {l : List α}
    (h : ∀ a ∈ l, f a = some (g a)) : l.mapM f = some (l.map g) := by
  induction l with
  | nil => rfl
  | cons a l ih =>
    obtain ⟨ha, hl⟩ := List.forall_mem_cons.1 h
    rw [List.mapM_cons, ha, ih hl]
    rfl

theorem mapM_checkedQuota (htotal : total < 18446744073709551616) (weights : List ℕ) :
    weights.mapM (checkedQuota total (weightSum weights)) =
      some (weights.map (quota total (weightSum weights))) :=
  mapM_eq_some fun _ hw => checkedQuota_eq htotal hw

/-- **As many turns as the total for each weight** hand out all that is left over. -/
theorem takeTurns_ranking (hpos : ∃ w ∈ weights, 0 < w) (htotal : total < 18446744073709551616)
    (hturns : total * weights.length ≤ turns) :
    takeTurns weights turns (ranking (quotaRemainders total weights))
        (total - sumOf (wholeShares total weights)) (wholeShares total weights) =
      some (handOut (total - sumOf (wholeShares total weights))
        (order weights (quotaRemainders total weights)) (wholeShares total weights)) := by
  have hle := sumOf_wholeShares_le total weights
  have hplaces := order_ne_nil (length_quotaRemainders total weights) hpos
  have hqueue : InTurn weights (order weights (quotaRemainders total weights)) 0
      (ranking (quotaRemainders total weights)) := (List.rotate_zero _).symm
  have hlen : (ranking (quotaRemainders total weights)).length = weights.length := by
    rw [ranking, List.length_map, List.length_mergeSort, List.length_zipIdx,
      length_quotaRemainders]
  obtain ⟨i, hi, hir⟩ := hqueue.exists_mem hplaces
  have hwait := waiting_lt hi hir
  generalize hleft : total - sumOf (wholeShares total weights) = leftover at *
  have hrun := @takeTurns_eq leftover 0 turns weights (wholeShares total weights) _ _ nodup_order
    hplaces hqueue (fun _ => lt_length_of_mem_order) (by omega) fun hpos' => ?_
  · rwa [handOut_zero, Nat.zero_add] at hrun
  · have hmul : leftover * weights.length ≤ turns :=
      (Nat.mul_le_mul_right _ (by omega)).trans hturns
    obtain ⟨left, rfl⟩ := Nat.exists_eq_succ_of_ne_zero hpos'.ne'
    rw [Nat.succ_eq_add_one, Nat.add_one_mul] at hmul
    rw [hlen] at hwait ⊢
    rw [Nat.succ_eq_add_one, Nat.add_sub_cancel]
    omega

/-- **No integer leaves 64 bits on the way**, and enough turns give the shares. -/
theorem checkedShares_eq (htotal : total < 18446744073709551616)
    (hturns : total * weights.length ≤ turns) :
    checkedShares turns total weights = some (shares total weights) := by
  by_cases hsum : weightSum weights = 0
  · simp only [checkedShares, shares, if_pos hsum]
  rw [shares_eq_handOut hsum, checkedShares, if_neg hsum, mapM_checkedQuota htotal]
  change (checkedTrim _ _ >>= fun base => takeTurns weights turns
    (ranking (quotaRemainders total weights)) (total - sumOf base.reverse) base.reverse) = _
  rw [checkedTrim_eq fun _ hs => share_lt_of_mem htotal (List.mem_reverse.1 hs)]
  have hpos : ∃ w ∈ weights, 0 < w := by
    by_contra hnone
    exact hsum (weightSum_eq_zero_iff.2 fun w hw =>
      Nat.le_zero.1 (Nat.not_lt.1 fun hpos => hnone ⟨w, hw, hpos⟩))
  exact takeTurns_ranking hpos htotal hturns

/-! ## The main fact -/

theorem wholeShares_of_zero (h : weights[i]? = some 0) :
    (wholeShares total weights)[i]? = some 0 := by
  obtain ⟨hi, hw⟩ := List.getElem?_eq_some_iff.1 h
  have hi' : i < (wholeShares total weights).length := by rwa [length_wholeShares]
  have hle := (forall₂_trimmed_le total
    ((weights.map (quota total (weightSum weights))).map Quota.share)).get hi' (by simpa using hi)
  have hshare : (quota total (weightSum weights) 0).share = 0 := by
    rw [quota, Nat.mul_zero, if_pos (by decide), Nat.zero_div]
  rw [List.get_eq_getElem, List.get_eq_getElem, List.getElem_map, List.getElem_map, hw, hshare]
    at hle
  rw [List.getElem?_eq_getElem hi']
  exact congrArg some (Nat.le_zero.1 hle)

/-- **A place without weight receives nothing.** -/
theorem shares_of_zero (h : weights[i]? = some 0) : (shares total weights)[i]? = some 0 := by
  by_cases hsum : weightSum weights = 0
  · rw [shares]
    simp only [hsum, if_true, List.getElem?_map, h, Option.map_some]
  have hnot : i ∉ order weights (quotaRemainders total weights) := fun hi => by
    have hpos := (mem_order.1 hi).2
    rw [List.getD_eq_getElem?_getD, h] at hpos
    exact Nat.lt_irrefl 0 hpos
  rw [shares_eq_handOut hsum, getElem?_handOut, wholeShares_of_zero h, received_of_not_mem hnot]
  rfl

/-- **The shares of a total of 64 bits conserve it**, whatever the weights.  Every integer on the way
fits and the turns end.  In double precision every whole part fits too, or it is `2 ^ 64` and loses a
unit, which no share would have kept.  There is one share for each weight, a weight of zero receives
nothing, and the shares sum to the total unless there is no weight at all. -/
theorem shares_conserved (total : UInt64) (weights : List ℕ) :
    (∀ turns, total.toNat * weights.length ≤ turns →
      checkedShares turns total.toNat weights = some (shares total.toNat weights)) ∧
    (∀ w ∈ weights, narrow? (wholePart total.toNat (weightSum weights) w) =
        some (quota total.toNat (weightSum weights) w).share ∨
      Overfull total.toNat (weightSum weights) w) ∧
    shares total.toNat weights = unlimitedShares total.toNat weights ∧
    (shares total.toNat weights).length = weights.length ∧
    (∀ i : ℕ, weights[i]? = some 0 → (shares total.toNat weights)[i]? = some 0) ∧
    ((∃ w ∈ weights, 0 < w) → sumOf (shares total.toNat weights) = total.toNat) ∧
    ((∀ w ∈ weights, w = 0) → shares total.toNat weights = weights.map fun _ => 0) :=
  ⟨fun _ => checkedShares_eq total.toNat_lt, fun _ => narrow?_wholePart total.toNat_lt,
    shares_eq_unlimitedShares total.toNat_lt weights, length_shares _ _, fun _ => shares_of_zero,
    sumOf_shares, fun hall => if_pos (weightSum_eq_zero_iff.2 hall)⟩

/-- **A whole part can be too large for a word**: the greatest total is rounded up, and the only weight
receives all of it. -/
theorem overfull_greatest :
    Overfull 18446744073709551615 (weightSum [340282366920938463463374607431768211455])
        340282366920938463463374607431768211455 ∧
      narrow? (wholePart 18446744073709551615 (weightSum [340282366920938463463374607431768211455])
        340282366920938463463374607431768211455) = none :=
  ⟨⟨by decide, by decide +kernel, by decide +kernel, by decide +kernel⟩, by decide +kernel⟩

end CatalogStats.Allotment
