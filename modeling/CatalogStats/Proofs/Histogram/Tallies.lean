import CatalogStats.Histogram.Refinement
import CatalogStats.Proofs.Preliminaries

/-!
# Proofs/Histogram/Tallies — counted values in ascending order

Counted values of which none repeats are sorted into a strictly ascending list.  In such a list the
values up to the end of a bucket stand before all others, so walking along buckets and values hands
to every bucket exactly the values inside it.
-/

namespace CatalogStats.Histogram

variable {α : Type} {D : Domain α} {tallies ts us : List (Tally α)} {b : Bucket α}

/-- Counted values in strictly ascending order. -/
def Ascending (D : Domain α) (ts : List (Tally α)) : Prop :=
  ts.Pairwise fun s t => D.lt s.value t.value = true

/-- Two of the counted values are the same. -/
def Repeats (D : Domain α) (tallies : List (Tally α)) : Prop :=
  ¬ tallies.Pairwise fun s t => D.same s.value t.value = false

/-- A value lies in one of some buckets. -/
abbrev Covers (D : Domain α) (bs : List (Bucket α)) (v : α) : Prop :=
  ∃ b ∈ bs, b.contains D v = true

/-- The counted values inside a bucket. -/
def talliesIn (D : Domain α) (b : Bucket α) (tallies : List (Tally α)) : List (Tally α) :=
  tallies.filter fun t => b.contains D t.value

/-- The sum of the counts. -/
def countOf (tallies : List (Tally α)) : ℕ := sumOf (tallies.map fun t => t.count.toNat)

theorem contains_iff {v : α} :
    b.contains D v = true ↔ D.le b.lower v = true ∧ D.le v b.upper = true :=
  Bool.and_eq_true _ _ ▸ Iff.rfl

theorem contains_single (v : α) (n : ℕ) : (Bucket.single v n).contains D v = true :=
  contains_iff.2 ⟨Domain.le_refl, Domain.le_refl⟩

theorem contains_of_same {v w : α} (h : D.same v w = true) (hv : b.contains D v = true) :
    b.contains D w = true := by
  obtain ⟨hvw, hwv⟩ := Domain.same_iff_le.1 h
  exact contains_iff.2 ⟨Domain.le_trans (contains_iff.1 hv).1 hvw,
    Domain.le_trans hwv (contains_iff.1 hv).2⟩

/-- An exact bucket contains a single value. -/
theorem same_of_isExact {v : α} (hb : b.isExact D = true) (hv : b.contains D v = true) :
    D.same b.lower v = true := by
  obtain ⟨hlow, hhigh⟩ := contains_iff.1 hv
  exact Domain.same_iff_le.2 ⟨hlow, Domain.le_trans hhigh (Domain.same_iff_le.1 hb).2⟩

theorem mem_talliesIn {t : Tally α} :
    t ∈ talliesIn D b tallies ↔ t ∈ tallies ∧ b.contains D t.value = true :=
  List.mem_filter

theorem talliesIn_perm (h : ts.Perm tallies) : (talliesIn D b ts).Perm (talliesIn D b tallies) :=
  h.filter _

theorem countOf_perm (h : ts.Perm tallies) : countOf ts = countOf tallies := sumOf_perm (h.map _)

theorem Ascending.talliesIn (h : Ascending D ts) : Ascending D (talliesIn D b ts) :=
  h.sublist List.filter_sublist

/-! ## Sorting -/

theorem sorted_perm (tallies : List (Tally α)) : (sorted D tallies).Perm tallies :=
  List.mergeSort_perm _ _

theorem mem_sorted {t : Tally α} : t ∈ sorted D tallies ↔ t ∈ tallies :=
  (sorted_perm tallies).mem_iff

theorem forall_mem_sorted {P : Tally α → Prop} :
    (∀ t ∈ sorted D tallies, P t) ↔ ∀ t ∈ tallies, P t := by
  simp only [mem_sorted]

theorem exists_mem_sorted {P : Tally α → Prop} :
    (∃ t ∈ sorted D tallies, P t) ↔ ∃ t ∈ tallies, P t := by
  simp only [mem_sorted]

theorem pairwise_sorted (tallies : List (Tally α)) :
    (sorted D tallies).Pairwise fun s t => D.le s.value t.value = true := by
  refine List.pairwise_mergeSort (fun _ _ _ => Domain.le_trans) (fun s t => ?_) tallies
  cases h : D.le s.value t.value with
  | true => rfl
  | false => exact Domain.le_of_lt (Domain.not_le.1 h)

/-- Sorted values stay as they are. -/
theorem sorted_eq_self (h : ts.Pairwise fun s t => D.le s.value t.value = true) : sorted D ts = ts :=
  List.mergeSort_of_pairwise h

/-- Of ascending values, none is the same as its neighbour exactly when all are distinct. -/
theorem repeated?_eq_none_iff (h : ts.Pairwise fun s t => D.le s.value t.value = true) :
    repeated? D ts = none ↔ Ascending D ts := by
  induction ts with
  | nil => exact ⟨fun _ => .nil, fun _ => rfl⟩
  | cons s ts ih =>
    cases ts with
    | nil => exact ⟨fun _ => List.pairwise_singleton _ _, fun _ => rfl⟩
    | cons t ts =>
      obtain ⟨hs, hts⟩ := List.pairwise_cons.1 h
      have hst := hs t List.mem_cons_self
      rw [repeated?]
      split
      case isTrue hsame =>
        refine ⟨nofun, ?_⟩
        intro ha
        have := Domain.not_same_of_lt (List.rel_of_pairwise_cons ha List.mem_cons_self)
        rw [this] at hsame
        cases hsame
      case isFalse hsame =>
        have hlt := Domain.lt_iff_le_not_same.2 ⟨hst, Bool.eq_false_iff.2 hsame⟩
        rw [ih hts]
        refine ⟨fun ha => List.pairwise_cons.2 ⟨?_, ha⟩, List.Pairwise.of_cons⟩
        intro u hu
        rcases List.mem_cons.1 hu with rfl | hu
        · exact hlt
        · exact Domain.lt_trans hlt (List.rel_of_pairwise_cons ha hu)

/-- The value that repeats is counted at least twice. -/
theorem countP_of_repeated?_eq_some {v : α} (h : repeated? D ts = some v) :
    ∃ t ∈ ts, t.value = v ∧ 2 ≤ ts.countP fun u => D.same v u.value := by
  induction ts with
  | nil => cases h
  | cons s ts ih =>
    cases ts with
    | nil => cases h
    | cons t ts =>
      rw [repeated?] at h
      split at h
      case isTrue hsame =>
        obtain rfl := Option.some.inj h
        refine ⟨s, List.mem_cons_self, rfl, ?_⟩
        simp only [List.countP_cons, Domain.same_refl, hsame, if_true]
        omega
      case isFalse =>
        obtain ⟨u, hu, huv, hcount⟩ := ih h
        refine ⟨u, List.mem_cons_of_mem _ hu, huv, hcount.trans ?_⟩
        exact (List.sublist_cons_self _ _).countP_le

/-- Whether values repeat does not depend on their order. -/
theorem repeats_perm (h : ts.Perm tallies) : Repeats D ts ↔ Repeats D tallies := by
  refine not_congr (h.pairwise_iff fun {s t} hst => Bool.eq_false_iff.2 fun hts => ?_)
  rw [Domain.same_symm hts] at hst
  cases hst

theorem ascending_sorted_iff : Ascending D (sorted D tallies) ↔ ¬ Repeats D tallies := by
  rw [← repeats_perm (sorted_perm (D := D) tallies), Repeats, not_not]
  constructor
  · exact fun h => h.imp Domain.not_same_of_lt
  · intro h
    exact (h.and (pairwise_sorted tallies)).imp fun hp => Domain.lt_iff_le_not_same.2 ⟨hp.2, hp.1⟩

/-- **Values of which none repeats** are sorted into an ascending list. -/
theorem distinct_eq_ok_iff :
    distinct D tallies = .ok ts ↔ ts = sorted D tallies ∧ ¬ Repeats D tallies := by
  rw [← ascending_sorted_iff, ← repeated?_eq_none_iff (pairwise_sorted tallies), distinct]
  cases h : repeated? D (sorted D tallies) with
  | some v => exact ⟨nofun, fun h => nomatch h.2⟩
  | none => exact ⟨fun h => ⟨(Except.ok.inj h).symm, rfl⟩, fun h => by rw [h.1]⟩

/-- **A value that repeats** is named. -/
theorem distinct_of_repeats (h : Repeats D tallies) :
    ∃ t ∈ tallies, (2 ≤ tallies.countP fun u => D.same t.value u.value) ∧
      distinct D tallies = .error (.repeated t.value) := by
  have hne : repeated? D (sorted D tallies) ≠ none := fun hn =>
    ascending_sorted_iff.1 ((repeated?_eq_none_iff (pairwise_sorted tallies)).1 hn) h
  obtain ⟨v, hv⟩ := Option.ne_none_iff_exists'.1 hne
  obtain ⟨t, ht, rfl, hcount⟩ := countP_of_repeated?_eq_some hv
  refine ⟨t, (sorted_perm tallies).mem_iff.1 ht, ?_, by rw [distinct, hv]⟩
  rwa [← (sorted_perm (D := D) tallies).countP_eq]

/-! ## Order of listing -/

theorem Ascending.eq_of_perm (ht : Ascending D ts) (hu : Ascending D us) (hp : ts.Perm us) :
    ts = us := by
  refine hp.eq_of_pairwise (fun s t _ _ hst hts => ?_) ht hu
  exact absurd (Domain.le_of_lt hts) (Domain.not_le_of_lt hst)

/-- **The order in which distinct values are listed does not matter** once they are sorted. -/
theorem sorted_eq_of_perm (hp : ts.Perm us) (hts : ¬ Repeats D ts) : sorted D ts = sorted D us := by
  have ha : Ascending D (sorted D ts) := ascending_sorted_iff.2 hts
  have ha' : Ascending D (sorted D us) := ascending_sorted_iff.2 ((repeats_perm hp).not.1 hts)
  exact ha.eq_of_perm ha' ((sorted_perm ts).trans (hp.trans (sorted_perm us).symm))

/-! ## Handing values to buckets -/

/-- Ascending values up to a bound stand before all others. -/
theorem Ascending.le_bound (h : Ascending D ts) (v : α) :
    ts.Pairwise fun s t => D.le t.value v = true → D.le s.value v = true :=
  h.imp fun hlt => Domain.le_trans (Domain.le_of_lt hlt)

end CatalogStats.Histogram
