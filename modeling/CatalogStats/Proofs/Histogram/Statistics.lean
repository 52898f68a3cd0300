import CatalogStats.Proofs.Histogram.Quantiles
import CatalogStats.Proofs.Histogram.Success
import CatalogStats.Proofs.Histogram.Tiling
import Mathlib.Algebra.BigOperators.Group.List.Lemmas
import Mathlib.Data.Multiset.Dedup
import Mathlib.Data.Multiset.Filter

/-!
# Proofs/Histogram/Statistics — statistics that describe a collection of values

A minimum, quantiles and frequent values **summarize** a collection of values when they are what
counting it gives.  On a lattice such statistics always have a histogram, unless the first bucket
has no start (`exists_ofQuantiles`): its buckets hold the values between their bounds
(`frequency_eq_countP`) and cover the collection (`covers_of_mem`).  So the frequent values can
always refine it (`exists_refine_of_summarizes`).
-/

namespace CatalogStats.Histogram

variable {α : Type} {D : Domain α} {on : α → Prop} {M : Multiset α} {minimum v w : α}
  {rows qs : List (Quantile α)} {p q r : Quantile α} {tallies : List (Tally α)} {h : Histogram D}
  {last b c : Bucket α} {bs : List (Bucket α)}

section Summary

variable [DecidableEq α]

/-- **The statistics of a collection of values**: its least value, some ascending boundaries up to
its greatest value with the number of values not above each, and every distinct value with its
count. -/
structure Summarizes (D : Domain α) (M : Multiset α) (minimum : α) (rows : List (Quantile α))
    (tallies : List (Tally α)) : Prop where
  minimum_mem : minimum ∈ M
  minimum_le : ∀ v ∈ M, D.le minimum v = true
  rows_ne_nil : rows ≠ []
  ordered : rows.Pairwise fun p q => D.lt p.boundary q.boundary = true
  minimum_le_first : ∀ q, rows.head? = some q → D.le minimum q.boundary = true
  last_mem : ∀ q, rows.getLast? = some q → q.boundary ∈ M
  le_last : ∀ q, rows.getLast? = some q → ∀ v ∈ M, D.le v q.boundary = true
  cumulative : ∀ q ∈ rows, q.cumulative.toNat = M.countP fun v => D.le v q.boundary = true
  values : (tallies.map Tally.value : Multiset α) = M.dedup
  counts : ∀ t ∈ tallies, t.count.toNat = M.count t.value

/-! ## Counting -/

omit [DecidableEq α] in
/-- The values up to a bound are those up to a smaller one and those between the two. -/
theorem countP_le_eq_add (M : Multiset α) (h : D.le v w = true) :
    (M.countP fun u => D.le u w = true) =
      (M.countP fun u => D.le u v = true) +
        M.countP fun u => D.lt v u = true ∧ D.le u w = true := by
  rw [M.countP_eq_countP_filter_add _ fun u => D.le u v = true, Multiset.countP_filter,
    Multiset.countP_filter]
  refine congrArg₂ _ (Multiset.countP_congr rfl fun u _ => ?_)
    (Multiset.countP_congr rfl fun u _ => ?_)
  · exact propext (and_iff_right_of_imp fun hu => Domain.le_trans hu h)
  · rw [← Domain.not_le, Bool.not_eq_true, and_comm]

/-- The counts of the distinct values that pass a test are the number of values that do. -/
theorem sum_count_filter_dedup (M : Multiset α) (p : α → Bool) :
    ((M.dedup.filter fun v => p v = true).map fun v => M.count v).sum =
      M.countP fun v => p v = true := by
  induction M using Quotient.inductionOn with
  | h l => simpa using List.sum_map_count_dedup_filter_eq_countP p l

namespace Summarizes

variable (hM : Summarizes D M minimum rows tallies)
include hM

theorem mem_iff : (∃ t ∈ tallies, t.value = v) ↔ v ∈ M := by
  rw [← Multiset.mem_dedup, ← hM.values, Multiset.mem_coe, List.mem_map]

/-- **The counts inside a bucket** are the number of values in it. -/
theorem countOf_talliesIn (b : Bucket α) :
    countOf (talliesIn D b tallies) = M.countP fun v => b.contains D v = true := by
  have hcounts : (talliesIn D b tallies).map (fun t => t.count.toNat) =
      ((tallies.map Tally.value).filter fun v => b.contains D v).map fun v => M.count v := by
    rw [List.filter_map, List.map_map]
    exact List.map_congr_left fun t ht => hM.counts t (mem_talliesIn.1 ht).1
  rw [countOf, hcounts, sumOf_eq_sum, ← sum_count_filter_dedup, ← hM.values, Multiset.filter_coe,
    Multiset.map_coe, Multiset.sum_coe]
  simp only [Bool.decide_eq_true]

/-- No distinct value is listed twice. -/
theorem not_repeats (hD : D.Strict) : ¬ Repeats D tallies := by
  have hnodup : (tallies.map Tally.value).Nodup :=
    Multiset.coe_nodup.1 (hM.values ▸ Multiset.nodup_dedup M)
  rw [Repeats, not_not]
  refine (List.pairwise_map.1 hnodup).imp fun hne => Bool.eq_false_iff.2 fun hsame => ?_
  exact hne (hD.eq_of_same hsame)

/-- No boundary is below the minimum. -/
theorem minimum_le_boundary (hq : q ∈ rows) : D.le minimum q.boundary = true := by
  obtain ⟨r, rs, rfl⟩ := List.exists_cons_of_ne_nil hM.rows_ne_nil
  have hfirst := hM.minimum_le_first r rfl
  rcases List.mem_cons.1 hq with rfl | hq
  · exact hfirst
  · exact Domain.le_trans hfirst (Domain.le_of_lt (List.rel_of_pairwise_cons hM.ordered hq))

/-- …and none above the last one. -/
theorem boundary_le_last (hr : rows.getLast? = some r) (hq : q ∈ rows) :
    D.le q.boundary r.boundary = true := by
  obtain ⟨init, rfl⟩ := List.getLast?_eq_some_iff.1 hr
  rcases List.mem_append.1 hq with hq | hq
  · have hbefore := (List.pairwise_append.1 hM.ordered).2.2
    exact Domain.le_of_lt (hbefore q hq r (List.mem_singleton_self r))
  · exact List.mem_singleton.1 hq ▸ Domain.le_refl

/-- **The quantiles rise.** -/
theorem isChain_rises : rows.IsChain (Rises D) := by
  have hpair : rows.Pairwise (Rises D) :=
    hM.ordered.imp_of_mem fun {p q} hp hq hlt => ⟨hlt, by
      rw [hM.cumulative p hp, hM.cumulative q hq, countP_le_eq_add M (Domain.le_of_lt hlt)]
      exact Nat.le_add_right _ _⟩
  exact hpair.isChain

end Summarizes

end Summary

/-! ## The histogram of the quantiles -/

section Lattice

variable (L : D.Lattice on) (hon : ∀ v, on v)
include L hon

/-- **On a lattice the walk along rising quantiles ends.** -/
theorem exists_gathered (last : Bucket α) (h : (p :: qs).IsChain (Rises D)) :
    ∃ bs, Gathered D last p qs bs := by
  induction qs generalizing last p with
  | nil => exact ⟨[last], .close⟩
  | cons q qs ih =>
    obtain ⟨hrises, h⟩ := List.isChain_cons_cons.1 h
    have hlt := (L.lt_iff (hon _) (hon _)).1 hrises.lt
    obtain ⟨v, hv, _, hidx⟩ := L.exists_next? (hon p.boundary) (hon q.boundary) hlt
    obtain ⟨bs, hbs⟩ := ih (opened v p q) h
    refine ⟨last :: bs, .fresh hrises hv ?_ hbs⟩
    rw [L.le_iff (hon _) (hon _)]
    omega

/-- **On a lattice every quantile is the end of a bucket.** -/
theorem Gathered.exists_upper (h : Gathered D last p qs bs) (hlast : last.upper = p.boundary) :
    ∀ q ∈ p :: qs, ∃ b ∈ bs, b.upper = q.boundary := by
  induction h with
  | close => exact List.forall_mem_singleton.2 ⟨_, List.mem_singleton_self _, hlast⟩
  | extend hrises hv hlt _ _ =>
    cases (absorbs_eq_false L (hon _) (hon _) hrises.lt).symm.trans ((absorbs_eq hv).trans hlt)
  | fresh _ _ _ _ ih =>
    refine List.forall_mem_cons.2 ⟨⟨_, List.mem_cons_self, hlast⟩, fun q hq => ?_⟩
    obtain ⟨b, hb, hupper⟩ := ih rfl q hq
    exact ⟨b, List.mem_cons_of_mem _ hb, hupper⟩

/-- Buckets that start at the next value each run from the first start to the last end. -/
theorem runsTo_of_isChain (hD : D.Strict) (hbounds : ∀ c ∈ b :: bs, D.le c.lower c.upper = true)
    (h : (b :: bs).IsChain fun a c => D.next? a.upper = some c.lower)
    (hlast : (b :: bs).getLast? = some c) :
    RunsTo L (L.index b.lower) (L.index c.upper) (b :: bs) := by
  induction bs generalizing b with
  | nil =>
    obtain rfl := Option.some.inj hlast
    have hle := (L.le_iff (hon _) (hon _)).1 (hbounds b List.mem_cons_self)
    exact runsTo_cons_iff.2 ⟨hon _, hon _, rfl, hle, rfl⟩
  | cons b' bs ih =>
    obtain ⟨hnext, h⟩ := List.isChain_cons_cons.1 h
    obtain ⟨hb, hbs⟩ := List.forall_mem_cons.1 hbounds
    have hidx := L.index_of_next? hD (hon _) (hon _) hnext
    have hle := (L.le_iff (hon _) (hon _)).1 hb
    refine runsTo_cons_iff.2 ⟨hon _, hon _, rfl, hle, ?_⟩
    exact hidx ▸ ih hbs h (by rwa [List.getLast?_cons_cons] at hlast)

/-- **The rows between two quantiles** are the values that the bucket between them contains. -/
theorem rowsBetween_eq_countP (hlt : D.lt p.boundary q.boundary = true)
    (hv : D.next? p.boundary = some v)
    (hp : p.cumulative.toNat = M.countP fun w => D.le w p.boundary = true)
    (hq : q.cumulative.toNat = M.countP fun w => D.le w q.boundary = true) :
    rowsBetween p q = M.countP fun w => (opened v p q).contains D w = true := by
  have hidx := (L.lt_iff (hon _) (hon _)).1 hlt
  obtain ⟨v', hv', _, hnext⟩ := L.exists_next? (hon p.boundary) (hon q.boundary) hidx
  obtain rfl : v' = v := Option.some.inj (hv'.symm.trans hv)
  rw [rowsBetween, hp, hq, countP_le_eq_add M (Domain.le_of_lt hlt), Nat.add_sub_cancel_left]
  refine Multiset.countP_congr rfl fun w _ => ?_
  rw [contains_iff, opened, L.lt_iff (hon _) (hon _), L.le_iff (hon _) (hon _),
    L.le_iff (hon v') (hon w), hnext, Int.add_one_le_iff]

/-- **Every gathered bucket holds the values it contains**, if the one under way does. -/
theorem Gathered.frequency_eq_countP (h : Gathered D last p qs bs)
    (hlast : last.frequency = M.countP fun v => last.contains D v = true)
    (hcum : ∀ q ∈ p :: qs, q.cumulative.toNat = M.countP fun v => D.le v q.boundary = true) :
    ∀ b ∈ bs, b.frequency = M.countP fun v => b.contains D v = true := by
  induction h with
  | close => exact List.forall_mem_singleton.2 hlast
  | extend hrises hv hlt _ _ =>
    cases (absorbs_eq_false L (hon _) (hon _) hrises.lt).symm.trans ((absorbs_eq hv).trans hlt)
  | @fresh last p q qs bs v hrises hv hle _ ih =>
    obtain ⟨hp, hcum⟩ := List.forall_mem_cons.1 hcum
    have hq := hcum q List.mem_cons_self
    exact List.forall_mem_cons.2
      ⟨hlast, ih (rowsBetween_eq_countP L hon hrises.lt hv hp hq) hcum⟩

variable [DecidableEq α] (hD : D.Strict) (hM : Summarizes D M minimum rows tallies)
include hD hM

/-- **The quantiles of a collection have a histogram**, if the first bucket has a start. -/
theorem exists_ofQuantiles (hstart : ∀ q, rows.head? = some q → q.boundary = minimum →
    (D.previous? minimum).isSome = true) : ∃ h, ofQuantiles D minimum rows = .ok h := by
  obtain ⟨q, qs, rfl⟩ := List.exists_cons_of_ne_nil hM.rows_ne_nil
  have hlower : ∃ v, firstLower D minimum q.boundary = .ok v :=
    exists_firstLower_iff.2 ⟨hM.minimum_le_first q rfl, fun hsame => hstart q rfl (hD.eq_of_same hsame)⟩
  obtain ⟨v, hv⟩ := hlower
  obtain ⟨bs, hg⟩ := exists_gathered L hon (firstBucket v q) hM.isChain_rises
  exact ⟨⟨bs, hg.valid hD (underWay_firstBucket hD hv)⟩, ofQuantiles_cons_eq_ok_iff.2 ⟨v, hv, hg⟩⟩

/-- **Its buckets hold the values they contain.** -/
theorem frequency_eq_countP (hh : ofQuantiles D minimum rows = .ok h) :
    ∀ b ∈ h.buckets, b.frequency = M.countP fun v => b.contains D v = true := by
  obtain ⟨q, qs, rfl⟩ := List.exists_cons_of_ne_nil hM.rows_ne_nil
  obtain ⟨v, hv, hg⟩ := ofQuantiles_cons_eq_ok_iff.1 hh
  refine hg.frequency_eq_countP L hon ?_ hM.cumulative
  have hle := le_minimum_of_firstLower hD hv
  rw [firstBucket, hM.cumulative q List.mem_cons_self]
  refine Multiset.countP_congr rfl fun w hw => ?_
  rw [contains_iff]
  exact propext (and_iff_right (Domain.le_trans hle (hM.minimum_le w hw))).symm

/-- **Its buckets cover all values** from the minimum to the last boundary. -/
theorem covers_of_between (hh : ofQuantiles D minimum rows = .ok h) (hlow : D.le minimum v = true)
    (hhigh : ∀ q, rows.getLast? = some q → D.le v q.boundary = true) :
    Covers D h.buckets v := by
  obtain ⟨q, qs, rfl⟩ := List.exists_cons_of_ne_nil hM.rows_ne_nil
  obtain ⟨lower, hlower, hg⟩ := ofQuantiles_cons_eq_ok_iff.1 hh
  have hway := underWay_firstBucket hD hlower
  obtain ⟨c, r, hc, hr, hupper, _⟩ := hg.exists_getLast? hway
  obtain ⟨b, bs, hbs, hb⟩ := hg.exists_cons
  have hchain := hg.isChain hway
  have hbounds := hg.bounds hway
  rw [hbs] at hc hchain hbounds
  have hruns := runsTo_of_isChain L hon hD hbounds hchain hc
  have hstart : D.le b.lower v = true :=
    Domain.le_trans (hb ▸ le_minimum_of_firstLower hD hlower) hlow
  have hend : D.le v c.upper = true := hupper ▸ hhigh r hr
  obtain ⟨i, hi, hiv⟩ := (hruns.exists_mem_iff (hon v)).2
    ⟨(L.le_iff (hon _) (hon _)).1 hstart, (L.le_iff (hon _) (hon _)).1 hend⟩
  obtain ⟨a, ha, rfl⟩ := List.mem_map.1 hi
  exact ⟨a, hbs ▸ ha, contains_iff.2 hiv⟩

/-- …and so they cover the collection. -/
theorem covers_of_mem (hh : ofQuantiles D minimum rows = .ok h) (hv : v ∈ M) :
    Covers D h.buckets v :=
  covers_of_between L hon hD hM hh (hM.minimum_le v hv) fun q hq => hM.le_last q hq v hv

/-- **The frequent values refine it.** -/
theorem exists_refine_of_summarizes (hspan : ∀ a c, 0 < D.span a c)
    (hh : ofQuantiles D minimum rows = .ok h) : ∃ s, (h.refine tallies).result = .ok s := by
  refine (exists_refine_eq_ok_iff_fits hD hspan L hon (hM.not_repeats hD)).2 ⟨?_, ?_⟩
  · exact fun t ht => covers_of_mem L hon hD hM hh (hM.mem_iff.1 ⟨t, ht, rfl⟩)
  · intro b hb _
    have heq : countOf (talliesIn D b tallies) = b.frequency := by
      rw [hM.countOf_talliesIn, frequency_eq_countP L hon hD hM hh b hb]
    exact ⟨heq.le, fun _ _ => heq⟩

end Lattice

end CatalogStats.Histogram
