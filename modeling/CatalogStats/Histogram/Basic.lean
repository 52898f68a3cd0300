import CatalogStats.Histogram.Fault

/-!
# Histogram/Basic — histograms and their invariant

A histogram is a list of buckets in ascending order: each ends no earlier than it starts, each
starts strictly after the one before it has ended, and all frequencies together have 64 bits.
`Histogram.ofBuckets` accepts the lists with these properties and names the first fault of any other.
-/

namespace CatalogStats

/-- The sum of the frequencies. -/
def Bucket.total {α : Type} : List (Bucket α) → Nat
  | [] => 0
  | b :: bs => b.frequency + total bs

namespace Histogram

variable {α : Type} (D : Domain α)

/-- **The invariant of a histogram.** -/
structure Valid (bs : List (Bucket α)) : Prop where
  bounds : ∀ b ∈ bs, D.le b.lower b.upper = true
  ordered : bs.Pairwise fun a b => D.lt a.upper b.lower = true
  total_lt : Bucket.total bs < 18446744073709551616

end Histogram

/-- A histogram over a domain. -/
structure Histogram {α : Type} (D : Domain α) where
  buckets : List (Bucket α)
  valid : Histogram.Valid D buckets

namespace Histogram

variable {α : Type} {D : Domain α}

theorem Valid.nil : Valid D [] := ⟨by simp, .nil, by simp [Bucket.total]⟩

theorem total_le_of_sublist {as bs : List (Bucket α)} (h : as.Sublist bs) :
    Bucket.total as ≤ Bucket.total bs := by
  induction h with
  | slnil => exact Nat.le_refl _
  | cons b _ ih => simp only [Bucket.total] at ih ⊢; omega
  | cons_cons b _ ih => simp only [Bucket.total] at ih ⊢; omega

/-- Buckets may be left out. -/
theorem Valid.sublist {as bs : List (Bucket α)} (h : Valid D bs) (hs : as.Sublist bs) :
    Valid D as :=
  ⟨fun b hb => h.bounds b (hs.subset hb), h.ordered.sublist hs,
    Nat.lt_of_le_of_lt (total_le_of_sublist hs) h.total_lt⟩

/-! ## Construction -/

/-- The histogram without buckets. -/
def empty : Histogram D := ⟨[], .nil⟩

/-- The first bucket, counted from `index`, that ends before it starts or that starts before the
end `previous` of the one before it. -/
def boundsFault? (D : Domain α) : Nat → Option α → List (Bucket α) → Option (Fault α)
  | _, _, [] => none
  | index, previous, b :: bs =>
    if D.lt b.upper b.lower then some (.inverted index b.lower b.upper)
    else
      match previous.filter fun p => D.le b.lower p with
      | some p => some (.overlapping index b.lower p)
      | none => boundsFault? D (index + 1) (some b.upper) bs

/-- The first bucket at which the frequencies, together with `sum`, pass 64 bits. -/
def totalFault? : Nat → List (Bucket α) → Option (Fault α)
  | _, [] => none
  | sum, b :: bs =>
    if sum + b.frequency < 18446744073709551616 then totalFault? (sum + b.frequency) bs
    else some (.tooMany b.lower b.upper)

theorem bounds_of_boundsFault?_eq_none {bs : List (Bucket α)} :
    ∀ {index : Nat} {previous : Option α}, boundsFault? D index previous bs = none →
      (∀ b ∈ bs, D.le b.lower b.upper = true) ∧
      (bs.Pairwise fun a b => D.lt a.upper b.lower = true) ∧
      ∀ p, previous = some p → ∀ b ∈ bs, D.lt p b.lower = true := by
  induction bs with
  | nil => intros; simp
  | cons b bs ih =>
    intro index previous h
    unfold boundsFault? at h
    split at h
    case isTrue => cases h
    case isFalse hb =>
      have hb : D.le b.lower b.upper = true := Domain.not_lt.1 (Bool.eq_false_iff.2 hb)
      split at h
      case h_1 => cases h
      case h_2 hp =>
        obtain ⟨hbounds, hpair, hfirst⟩ := ih h
        have hfirst := hfirst b.upper rfl
        refine ⟨?_, List.pairwise_cons.2 ⟨hfirst, hpair⟩, ?_⟩
        · intro a ha
          rcases List.mem_cons.1 ha with rfl | ha
          · exact hb
          · exact hbounds a ha
        · rintro p rfl
          have hpb : D.lt p b.lower = true := by
            rw [Option.filter_eq_none_iff] at hp
            exact Domain.not_le.1 (Bool.eq_false_iff.2 (hp p rfl))
          intro a ha
          rcases List.mem_cons.1 ha with rfl | ha
          · exact hpb
          · exact Domain.lt_of_lt_of_le hpb
              (Domain.le_trans hb (Domain.le_of_lt (hfirst a ha)))

theorem total_lt_of_totalFault?_eq_none {bs : List (Bucket α)} :
    ∀ {sum : Nat}, sum < 18446744073709551616 → totalFault? sum bs = none →
      sum + Bucket.total bs < 18446744073709551616 := by
  induction bs with
  | nil => intro sum hs _; simpa [Bucket.total] using hs
  | cons b bs ih =>
    intro sum _ h
    unfold totalFault? at h
    split at h
    case isFalse => cases h
    case isTrue hb =>
      have := ih hb h
      simp only [Bucket.total] at this ⊢
      omega

/-- The first fault of a list of buckets. -/
def fault? (D : Domain α) (bs : List (Bucket α)) : Option (Fault α) :=
  (boundsFault? D 0 none bs).or (totalFault? 0 bs)

/-- A list without fault has the invariant. -/
theorem valid_of_fault?_eq_none {bs : List (Bucket α)} (h : fault? D bs = none) : Valid D bs := by
  obtain ⟨hb, ht⟩ := Option.or_eq_none_iff.1 h
  obtain ⟨hbounds, hpair, _⟩ := bounds_of_boundsFault?_eq_none hb
  have := total_lt_of_totalFault?_eq_none (by decide) ht
  exact ⟨hbounds, hpair, by omega⟩

/-- **The histogram of a list of buckets**, or the first fault of the list. -/
def ofBuckets (D : Domain α) (bs : List (Bucket α)) : Except (Fault α) (Histogram D) :=
  match h : fault? D bs with
  | some fault => .error fault
  | none => .ok ⟨bs, valid_of_fault?_eq_none h⟩

/-! ## Figures -/

/-- The sum of all frequencies. -/
def total (h : Histogram D) : Nat := Bucket.total h.buckets

/-- The least value. -/
def min? (h : Histogram D) : Option α := h.buckets.head?.map Bucket.lower

/-- The greatest value. -/
def max? (h : Histogram D) : Option α := h.buckets.getLast?.map Bucket.upper

/-- The number of values from the least to the greatest. -/
def cardinality (h : Histogram D) : Nat :=
  match h.min?, h.max? with
  | some a, some b => D.span a b
  | _, _ => 0

/-- Checks that the frequencies sum to an expected total. -/
def checkTotal (h : Histogram D) (expected : Nat) : Except (Fault α) Unit :=
  if h.total = expected then .ok () else .error (.totalMismatch expected h.total)

/-- Whether two histograms have the same buckets. -/
def same (h k : Histogram D) : Bool :=
  h.buckets.length == k.buckets.length
    && (h.buckets.zip k.buckets).all fun (a, b) => a.same D b

/-! ## Parts -/

/-- The buckets that pass a test. -/
def filter (p : Bucket α → Bool) (h : Histogram D) : Histogram D :=
  ⟨h.buckets.filter p, h.valid.sublist List.filter_sublist⟩

/-- The exact buckets. -/
def exactPart (h : Histogram D) : Histogram D := h.filter (Bucket.isExact D)

/-- The buckets that are not exact. -/
def rangePart (h : Histogram D) : Histogram D := h.filter fun b => !b.isExact D

end Histogram

end CatalogStats
