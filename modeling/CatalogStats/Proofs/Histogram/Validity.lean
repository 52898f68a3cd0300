import CatalogStats.Histogram.Estimate
import CatalogStats.Proofs.Histogram.Tallies

/-!
# Proofs/Histogram/Validity — which lists of buckets are histograms

A list of buckets is accepted exactly when it has the invariant (`fault?_eq_none_iff`).  In such a
list no value lies in two buckets, and putting in the place of each bucket some buckets in order
inside it keeps the invariant, as long as the frequencies do not grow (`Valid.flatten`).
-/

namespace CatalogStats

/-- The total is the sum of the frequencies. -/
theorem Bucket.total_eq_sumOf {α : Type} (bs : List (Bucket α)) :
    Bucket.total bs = sumOf (bs.map Bucket.frequency) := by
  induction bs with
  | nil => rfl
  | cons b bs ih => rw [Bucket.total, List.map_cons, sumOf_cons, ih]

theorem Bucket.total_append {α : Type} (as bs : List (Bucket α)) :
    Bucket.total (as ++ bs) = Bucket.total as + Bucket.total bs := by
  simp only [Bucket.total_eq_sumOf, List.map_append, sumOf_append]

/-- A bucket holds at most the total. -/
theorem Bucket.frequency_le_total {α : Type} {b : Bucket α} {bs : List (Bucket α)} (h : b ∈ bs) :
    b.frequency ≤ Bucket.total bs := by
  rw [Bucket.total_eq_sumOf]
  exact le_sumOf (List.mem_map_of_mem h)

namespace Histogram

variable {α : Type} {D : Domain α} {bs : List (Bucket α)} {b c : Bucket α}
  {groups : List (List (Bucket α))}

/-! ## Acceptance -/

theorem boundsFault?_eq_none {index : ℕ} {previous : Option α}
    (hbounds : ∀ b ∈ bs, D.le b.lower b.upper = true)
    (hordered : bs.Pairwise fun a b => D.lt a.upper b.lower = true)
    (hprevious : ∀ p, previous = some p → ∀ b ∈ bs, D.lt p b.lower = true) :
    boundsFault? D index previous bs = none := by
  induction bs generalizing index previous with
  | nil => rfl
  | cons b bs ih =>
    obtain ⟨hb, hbs⟩ := List.pairwise_cons.1 hordered
    have hfirst : previous.filter (fun p => D.le b.lower p) = none := by
      rw [Option.filter_eq_none_iff]
      intro p hp
      exact Domain.not_le_of_lt (hprevious p hp b List.mem_cons_self)
    rw [boundsFault?, Domain.not_lt.2 (hbounds b List.mem_cons_self), hfirst]
    refine ih (fun c hc => hbounds c (List.mem_cons_of_mem _ hc)) hbs ?_
    intro p hp
    obtain rfl := Option.some.inj hp
    exact hb

theorem totalFault?_eq_none {sum : ℕ} (h : sum + Bucket.total bs < 18446744073709551616) :
    totalFault? sum bs = none := by
  induction bs generalizing sum with
  | nil => rfl
  | cons b bs ih =>
    rw [Bucket.total] at h
    rw [totalFault?, if_pos (by omega)]
    exact ih (by omega)

/-- A list has no fault exactly when it has the invariant. -/
theorem fault?_eq_none_iff : fault? D bs = none ↔ Valid D bs := by
  refine ⟨valid_of_fault?_eq_none, fun h => Option.or_eq_none_iff.2 ⟨?_, ?_⟩⟩
  · exact boundsFault?_eq_none h.bounds h.ordered nofun
  · exact totalFault?_eq_none (by rw [Nat.zero_add]; exact h.total_lt)

/-- **A list with the invariant is accepted**, unchanged. -/
theorem ofBuckets_of_valid (h : Valid D bs) : ofBuckets D bs = .ok ⟨bs, h⟩ := by
  unfold ofBuckets
  split
  case h_1 fault hfault =>
    rw [fault?_eq_none_iff.2 h] at hfault
    cases hfault
  case h_2 => rfl

/-- A list with a fault is refused for it. -/
theorem ofBuckets_of_fault? {f : Fault α} (h : fault? D bs = some f) :
    ofBuckets D bs = .error f := by
  unfold ofBuckets
  split
  case h_1 fault hfault => rw [Option.some.inj (hfault.symm.trans h)]
  case h_2 hnone => cases hnone.symm.trans h

theorem buckets_of_ofBuckets {s : Histogram D} (h : ofBuckets D bs = .ok s) : s.buckets = bs := by
  unfold ofBuckets at h
  split at h
  case h_1 => cases h
  case h_2 => rw [← Except.ok.inj h]

/-! ## Disjoint buckets -/

/-- A bucket that ends before another starts shares no value with it. -/
theorem not_contains_of_lt {v : α} (h : D.lt b.upper c.lower = true) (hb : b.contains D v = true) :
    ¬ c.contains D v = true := fun hc =>
  Domain.not_le_of_lt (Domain.lt_of_le_of_lt (contains_iff.1 hb).2 h) (contains_iff.1 hc).1

/-- Of intervals in order at most one holds a value. -/
theorem eq_of_between {β : Type} {lower upper : β → α} {l : List β}
    (h : l.Pairwise fun p q => D.lt (upper p) (lower q) = true) {p q : β} (hp : p ∈ l) (hq : q ∈ l)
    {v : α} (hpv : D.le (lower p) v = true ∧ D.le v (upper p) = true)
    (hqv : D.le (lower q) v = true ∧ D.le v (upper q) = true) : p = q := by
  have hlt : ∀ {p q}, D.lt (upper p) (lower q) = true → D.le v (upper p) = true →
      ¬ D.le (lower q) v = true := fun hpq hpv =>
    Domain.not_le_of_lt (Domain.lt_of_le_of_lt hpv hpq)
  refine List.Pairwise.forall_of_forall_of_flip
    (R := fun p q => (D.le (lower p) v = true ∧ D.le v (upper p) = true) →
      (D.le (lower q) v = true ∧ D.le v (upper q) = true) → p = q)
    (fun _ _ _ _ => rfl) (h.imp ?_) (h.imp ?_) hp hq hpv hqv
  · exact fun hpq hp hq => absurd hq.1 (hlt hpq hp.2)
  · exact fun hqp hp hq => absurd hp.1 (hlt hqp hq.2)

/-- **No value lies in two buckets.** -/
theorem Valid.eq_of_contains (h : Valid D bs) {v : α} (hb : b ∈ bs) (hc : c ∈ bs)
    (hbv : b.contains D v = true) (hcv : c.contains D v = true) : b = c :=
  eq_of_between h.ordered hb hc (contains_iff.1 hbv) (contains_iff.1 hcv)

/-- At most one bucket contains a value. -/
theorem Valid.countP_contains_le_one (h : Valid D bs) (v : α) :
    bs.countP (fun b => b.contains D v) ≤ 1 := by
  have hordered := h.ordered
  clear h
  induction bs with
  | nil => exact Nat.zero_le _
  | cons b bs ih =>
    obtain ⟨hb, hbs⟩ := List.pairwise_cons.1 hordered
    cases hbv : b.contains D v with
    | false => rw [List.countP_cons_of_neg (by simp [hbv])]; exact ih hbs
    | true =>
      have hnone : bs.countP (fun b => b.contains D v) = 0 :=
        List.countP_eq_zero.2 fun c hc => not_contains_of_lt (hb c hc) hbv
      rw [List.countP_cons, hnone, hbv]
      exact Nat.le_refl _

/-! ## Buckets inside buckets -/

/-- **Buckets that stand in order inside a bucket.** -/
structure Inside (D : Domain α) (b : Bucket α) (g : List (Bucket α)) : Prop where
  bounds : ∀ p ∈ g, D.le p.lower p.upper = true
  ordered : g.Pairwise fun p q => D.lt p.upper q.lower = true
  lower_le : ∀ p ∈ g, D.le b.lower p.lower = true
  le_upper : ∀ p ∈ g, D.le p.upper b.upper = true

/-- A bucket stands inside itself. -/
theorem Inside.self (h : D.le b.lower b.upper = true) : Inside D b [b] where
  bounds := List.forall_mem_singleton.2 h
  ordered := List.pairwise_singleton _ _
  lower_le := List.forall_mem_singleton.2 Domain.le_refl
  le_upper := List.forall_mem_singleton.2 Domain.le_refl

/-- A value inside the bucket makes an exact bucket inside it. -/
theorem Inside.single {v : α} (h : b.contains D v = true) (n : ℕ) : Inside D b [.single v n] where
  bounds := List.forall_mem_singleton.2 Domain.le_refl
  ordered := List.pairwise_singleton _ _
  lower_le := List.forall_mem_singleton.2 (contains_iff.1 h).1
  le_upper := List.forall_mem_singleton.2 (contains_iff.1 h).2

theorem lt_of_mem_flatten (hg : List.Forall₂ (Inside D) bs groups)
    (h : ∀ c ∈ bs, D.lt b.upper c.lower = true) :
    ∀ q ∈ groups.flatten, D.lt b.upper q.lower = true := by
  intro q hq
  obtain ⟨g, hgm, hqg⟩ := List.mem_flatten.1 hq
  obtain ⟨c, hc, hin⟩ := exists_left_of_forall₂ hg hgm
  exact Domain.lt_of_lt_of_le (h c hc) (hin.lower_le q hqg)

/-- **Buckets inside the buckets of a histogram are a histogram**, if they hold no more rows. -/
theorem Valid.flatten (h : Valid D bs) (hg : List.Forall₂ (Inside D) bs groups)
    (ht : Bucket.total groups.flatten ≤ Bucket.total bs) : Valid D groups.flatten := by
  refine ⟨?_, ?_, Nat.lt_of_le_of_lt ht h.total_lt⟩
  · intro p hp
    obtain ⟨g, hgm, hpg⟩ := List.mem_flatten.1 hp
    obtain ⟨b, _, hin⟩ := exists_left_of_forall₂ hg hgm
    exact hin.bounds p hpg
  · have hordered := h.ordered
    clear h ht
    induction hg with
    | nil => exact .nil
    | @cons b g bs groups hin hrest ih =>
      obtain ⟨hb, hbs⟩ := List.pairwise_cons.1 hordered
      rw [List.flatten_cons, List.pairwise_append]
      refine ⟨hin.ordered, ih hbs, ?_⟩
      intro p hp q hq
      exact Domain.lt_of_le_of_lt (hin.le_upper p hp) (lt_of_mem_flatten hrest hb q hq)

end Histogram

end CatalogStats
