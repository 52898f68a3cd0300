import CatalogStats.Proofs.Histogram.Cutting
import CatalogStats.Proofs.Histogram.Validity

/-!
# Proofs/Histogram/Groups — one group of buckets for each bucket

Refining walks along the buckets and the ascending counted values together.  The walk is taken apart
here: each bucket is refined by the counted values inside it, independently of the others
(`refineBuckets_eq_ok_iff`), and a failure is that of one bucket or of one value outside all of them
(`fault_of_refineBuckets`).
-/

namespace CatalogStats.Histogram

variable {α : Type} {D : Domain α} {bs : List (Bucket α)} {b c : Bucket α} {t : Tally α}
  {ts : List (Tally α)} {g pieces : List (Bucket α)}

/-! ## One bucket of the walk

In front of a bucket the walk has handed out every value up to the bucket before.  A value that is
left over below the bucket is in none. -/

theorem Valid.tail (h : Valid D (b :: bs)) : Valid D bs := h.sublist (List.sublist_cons_self _ _)

theorem Valid.lt_of_mem (h : Valid D (b :: bs)) (hc : c ∈ bs) : D.lt b.upper c.lower = true :=
  List.rel_of_pairwise_cons h.ordered hc

/-- The first bucket starts no later than any other. -/
theorem Valid.lower_le (h : Valid D (b :: bs)) (hc : c ∈ b :: bs) :
    D.le b.lower c.lower = true := by
  rcases List.mem_cons.1 hc with rfl | hc
  · exact Domain.le_refl
  · exact Domain.le_trans (h.bounds b List.mem_cons_self) (Domain.le_of_lt (h.lt_of_mem hc))

/-- …and the last ends no earlier. -/
theorem Valid.upper_le (h : Valid D (bs ++ [b])) (hc : c ∈ bs ++ [b]) :
    D.le c.upper b.upper = true := by
  obtain ⟨_, _, hbefore⟩ := List.pairwise_append.1 h.ordered
  rcases List.mem_append.1 hc with hc | hc
  · have hlt := hbefore c hc b (List.mem_singleton_self b)
    exact Domain.le_trans (Domain.le_of_lt hlt)
      (h.bounds b (List.mem_append_right _ (List.mem_singleton_self b)))
  · exact List.mem_singleton.1 hc ▸ Domain.le_refl

/-- A value below the first bucket is in none. -/
theorem Valid.not_covers_of_lt (h : Valid D (b :: bs)) {v : α}
    (hv : D.lt v b.lower = true) : ¬ Covers D (b :: bs) v := by
  rintro ⟨c, hc, hcv⟩
  exact Domain.not_le_of_lt (Domain.lt_of_lt_of_le hv (h.lower_le hc)) (contains_iff.1 hcv).1

/-- The values after the end of a bucket are all there is for the buckets behind it. -/
theorem talliesIn_dropWhile (ha : Ascending D ts) (hlt : D.lt b.upper c.lower = true) :
    talliesIn D c (ts.dropWhile fun t => D.le t.value b.upper) = talliesIn D c ts := by
  rw [dropWhile_eq_filter (ha.le_bound b.upper), talliesIn, talliesIn, List.filter_filter]
  refine List.filter_congr fun t _ => ?_
  cases hc : c.contains D t.value with
  | false => rfl
  | true =>
    have := Domain.lt_of_lt_of_le hlt (contains_iff.1 hc).1
    rw [Domain.not_le.2 this]
    rfl

/-- If nothing is left over below a bucket, the values up to its end are those inside it. -/
theorem takeWhile_eq_talliesIn (ha : Ascending D ts) (hlow : ∀ t ∈ ts, D.le b.lower t.value = true) :
    (ts.takeWhile fun t => D.le t.value b.upper) = talliesIn D b ts := by
  rw [takeWhile_eq_filter (ha.le_bound b.upper), talliesIn]
  exact List.filter_congr fun t ht => by rw [Bucket.contains, hlow t ht, Bool.true_and]

/-- **A value left over below a bucket** ends the walk. -/
theorem refineBuckets_of_lt (hb : D.le b.lower b.upper = true) (ha : Ascending D ts)
    (hlow : ∃ t ∈ ts, D.lt t.value b.lower = true) :
    ∃ t ∈ ts, D.lt t.value b.lower = true ∧
      refineBuckets D (b :: bs) ts = ⟨[], .error (.uncovered t.value)⟩ := by
  obtain ⟨t, ht, hlt⟩ := hlow
  have hle : D.le t.value b.upper = true :=
    Domain.le_trans (Domain.le_of_lt hlt) hb
  have hmem : t ∈ ts.takeWhile fun t => D.le t.value b.upper := by
    rw [takeWhile_eq_filter (ha.le_bound b.upper)]
    exact List.mem_filter.2 ⟨ht, hle⟩
  have hsome : ((ts.takeWhile fun t => D.le t.value b.upper).find?
      fun t => D.lt t.value b.lower).isSome = true :=
    List.find?_isSome.2 ⟨t, hmem, hlt⟩
  obtain ⟨u, hu⟩ := Option.isSome_iff_exists.1 hsome
  have hmem : u ∈ ts := (List.takeWhile_subset _) (List.mem_of_find?_eq_some hu)
  have hlt : D.lt u.value b.lower = true :=
    List.find?_some (p := fun t : Tally α => D.lt t.value b.lower) hu
  exact ⟨u, hmem, hlt, by simp only [refineBuckets, hu]⟩

theorem find?_talliesIn_eq_none (b : Bucket α) (ts : List (Tally α)) :
    (talliesIn D b ts).find? (fun t => D.lt t.value b.lower) = none := by
  rw [List.find?_eq_none]
  intro t ht
  exact Domain.not_lt_of_le (contains_iff.1 (mem_talliesIn.1 ht).2).1

/-- **A bucket below which no value is left over** is refined by the values inside it. -/
theorem refineBuckets_of_ok (ha : Ascending D ts) (hlow : ∀ t ∈ ts, D.le b.lower t.value = true)
    (h : (refineBucket D b (talliesIn D b ts)).result = .ok g) :
    refineBuckets D (b :: bs) ts =
      let others := refineBuckets D bs (ts.dropWhile fun t => D.le t.value b.upper)
      ⟨(refineBucket D b (talliesIn D b ts)).notes ++ others.notes, others.result.map (g ++ ·)⟩ := by
  simp only [refineBuckets, takeWhile_eq_talliesIn ha hlow, find?_talliesIn_eq_none, h]

/-- …and ends the walk if that fails. -/
theorem refineBuckets_of_error {f : Fault α} (ha : Ascending D ts)
    (hlow : ∀ t ∈ ts, D.le b.lower t.value = true)
    (h : (refineBucket D b (talliesIn D b ts)).result = .error f) :
    refineBuckets D (b :: bs) ts = ⟨(refineBucket D b (talliesIn D b ts)).notes, .error f⟩ := by
  simp only [refineBuckets, takeWhile_eq_talliesIn ha hlow, find?_talliesIn_eq_none, h]

/-- What a bucket becomes, by the counted values inside it. -/
def RefinesTo (D : Domain α) (ts : List (Tally α)) (b : Bucket α) (g : List (Bucket α)) : Prop :=
  (refineBucket D b (talliesIn D b ts)).result = .ok g

/-- The notes taken at a bucket. -/
def notesAt (D : Domain α) (ts : List (Tally α)) (b : Bucket α) : List (Note α) :=
  (refineBucket D b (talliesIn D b ts)).notes

/-- **What the walk does at its first bucket.** -/
theorem refineBuckets_cons_cases (bs : List (Bucket α)) (hle : D.le b.lower b.upper = true)
    (ha : Ascending D ts) :
    (∃ t ∈ ts, D.lt t.value b.lower = true ∧
      refineBuckets D (b :: bs) ts = ⟨[], .error (.uncovered t.value)⟩) ∨
    (∀ t ∈ ts, D.le b.lower t.value = true) ∧
      ((∃ f, (refineBucket D b (talliesIn D b ts)).result = .error f ∧
        refineBuckets D (b :: bs) ts = ⟨notesAt D ts b, .error f⟩) ∨
      ∃ g, RefinesTo D ts b g ∧ refineBuckets D (b :: bs) ts =
        let others := refineBuckets D bs (ts.dropWhile fun t => D.le t.value b.upper)
        ⟨notesAt D ts b ++ others.notes, others.result.map (g ++ ·)⟩) := by
  by_cases hlow : ∃ t ∈ ts, D.lt t.value b.lower = true
  · exact .inl (refineBuckets_of_lt hle ha hlow)
  have hlow : ∀ t ∈ ts, D.le b.lower t.value = true := fun t ht =>
    Domain.not_lt.1 (Bool.eq_false_iff.2 fun hlt => hlow ⟨t, ht, hlt⟩)
  refine .inr ⟨hlow, ?_⟩
  cases hb : (refineBucket D b (talliesIn D b ts)).result with
  | error f => exact .inl ⟨f, rfl, refineBuckets_of_error ha hlow hb⟩
  | ok g => exact .inr ⟨g, hb, refineBuckets_of_ok ha hlow hb⟩

/-! ## The whole walk -/

/-- Values above the first bucket are covered by the others if they are covered. -/
theorem covered_dropWhile_iff (ha : Ascending D ts) (hv : Valid D (b :: bs))
    (hlow : ∀ t ∈ ts, D.le b.lower t.value = true) :
    (∀ t ∈ ts.dropWhile fun t => D.le t.value b.upper, Covers D bs t.value) ↔
      ∀ t ∈ ts, Covers D (b :: bs) t.value := by
  rw [dropWhile_eq_filter (ha.le_bound b.upper)]
  constructor
  · intro h t ht
    cases hle : D.le t.value b.upper with
    | true => exact ⟨b, List.mem_cons_self, contains_iff.2 ⟨hlow t ht, hle⟩⟩
    | false =>
      obtain ⟨c, hc, hct⟩ := h t (List.mem_filter.2 ⟨ht, by rw [hle]; rfl⟩)
      exact ⟨c, List.mem_cons_of_mem _ hc, hct⟩
  · intro h t ht
    obtain ⟨ht, hle⟩ := List.mem_filter.1 ht
    obtain ⟨c, hc, hct⟩ := h t ht
    rcases List.mem_cons.1 hc with rfl | hc
    · rw [(contains_iff.1 hct).2] at hle
      cases hle
    · exact ⟨c, hc, hct⟩

theorem forall₂_refinesTo_dropWhile (ha : Ascending D ts) (hv : Valid D (b :: bs))
    {groups : List (List (Bucket α))} :
    List.Forall₂ (RefinesTo D (ts.dropWhile fun t => D.le t.value b.upper)) bs groups ↔
      List.Forall₂ (RefinesTo D ts) bs groups := by
  have heq : ∀ c ∈ bs, ∀ g, RefinesTo D (ts.dropWhile fun t => D.le t.value b.upper) c g ↔
      RefinesTo D ts c g := by
    intro c hc g
    rw [RefinesTo, talliesIn_dropWhile ha (hv.lt_of_mem hc), RefinesTo]
  exact ⟨fun h => Forall₂.imp_mem h fun c hc g _ => (heq c hc g).1,
    fun h => Forall₂.imp_mem h fun c hc g _ => (heq c hc g).2⟩

/-- **Refining ascending values succeeds** exactly when each lies in a bucket and every bucket can be
refined by those inside it; the refined buckets are those of the groups, in order. -/
theorem refineBuckets_eq_ok_iff (hv : Valid D bs) (ha : Ascending D ts) :
    (refineBuckets D bs ts).result = .ok pieces ↔
      (∀ t ∈ ts, Covers D bs t.value) ∧
        ∃ groups, List.Forall₂ (RefinesTo D ts) bs groups ∧ pieces = groups.flatten := by
  induction bs generalizing ts pieces with
  | nil =>
    cases ts with
    | nil =>
      refine ⟨fun h => ⟨nofun, [], .nil, (Except.ok.inj h).symm⟩, ?_⟩
      rintro ⟨_, groups, hg, rfl⟩
      cases hg
      rfl
    | cons t ts =>
      constructor
      · intro h
        cases h
      · rintro ⟨hcov, _⟩
        obtain ⟨b, hb, _⟩ := hcov t List.mem_cons_self
        cases hb
  | cons b bs ih =>
    obtain ⟨t, ht, hlt, heq⟩ | ⟨hlow, ⟨f, hf, heq⟩ | ⟨g, hg, heq⟩⟩ :=
      refineBuckets_cons_cases bs (hv.bounds b List.mem_cons_self) ha
    · rw [heq]
      constructor
      · intro h
        cases h
      · rintro ⟨hcov, _⟩
        exact absurd (hcov t ht) (hv.not_covers_of_lt hlt)
    · rw [heq]
      constructor
      · intro h
        cases h
      · rintro ⟨_, groups, hgroups, _⟩
        cases hgroups with
        | cons hg _ => cases hf.symm.trans hg
    · have hd : Ascending D (ts.dropWhile fun t => D.le t.value b.upper) :=
        ha.sublist (List.dropWhile_sublist _)
      rw [heq, map_eq_ok_iff, ← covered_dropWhile_iff ha hv hlow]
      constructor
      · rintro ⟨others, hothers, rfl⟩
        obtain ⟨hcov, groups, hgroups, rfl⟩ := (ih hv.tail hd).1 hothers
        exact ⟨hcov, g :: groups, .cons hg ((forall₂_refinesTo_dropWhile ha hv).1 hgroups), rfl⟩
      · rintro ⟨hcov, _, hgroups, rfl⟩
        cases hgroups with
        | @cons _ g' _ groups hg' hgroups =>
          obtain rfl := Except.ok.inj (hg.symm.trans hg')
          have hothers := (forall₂_refinesTo_dropWhile ha hv).2 hgroups
          exact ⟨groups.flatten, (ih hv.tail hd).2 ⟨hcov, groups, hothers, rfl⟩, rfl⟩

/-- …and every note is taken at a bucket. -/
theorem notes_refineBuckets (hv : Valid D bs) (ha : Ascending D ts)
    (h : (refineBuckets D bs ts).result = .ok pieces) :
    (refineBuckets D bs ts).notes = bs.flatMap (notesAt D ts) := by
  induction bs generalizing ts pieces with
  | nil =>
    cases ts with
    | nil => rfl
    | cons t ts => cases h
  | cons b bs ih =>
    obtain ⟨t, ht, hlt, heq⟩ | ⟨hlow, ⟨f, hf, heq⟩ | ⟨g, hg, heq⟩⟩ :=
      refineBuckets_cons_cases bs (hv.bounds b List.mem_cons_self) ha
    · rw [heq] at h
      cases h
    · rw [heq] at h
      cases h
    · rw [heq] at h ⊢
      obtain ⟨others, hothers, _⟩ := map_eq_ok_iff.1 h
      have hrest := ih hv.tail (ha.sublist (List.dropWhile_sublist _)) hothers
      have hsame : ∀ c ∈ bs, notesAt D (ts.dropWhile fun t => D.le t.value b.upper) c =
          notesAt D ts c := by
        intro c hc
        rw [notesAt, talliesIn_dropWhile ha (hv.lt_of_mem hc), notesAt]
      rw [List.flatMap_cons, ← List.flatMap_congr hsame, ← hrest]

/-- **Why the walk fails**: a value lies in no bucket, or a bucket cannot be refined by the values
inside it. -/
theorem fault_of_refineBuckets {f : Fault α} (hv : Valid D bs) (ha : Ascending D ts)
    (h : (refineBuckets D bs ts).result = .error f) :
    (∃ t ∈ ts, ¬ Covers D bs t.value ∧ f = .uncovered t.value) ∨
      ∃ b ∈ bs, (refineBucket D b (talliesIn D b ts)).result = .error f := by
  induction bs generalizing ts with
  | nil =>
    cases ts with
    | nil => cases h
    | cons t ts =>
      exact .inl ⟨t, List.mem_cons_self, by simp [Covers], (Except.error.inj h).symm⟩
  | cons b bs ih =>
    obtain ⟨t, ht, hlt, heq⟩ | ⟨hlow, ⟨f', hf, heq⟩ | ⟨g, hg, heq⟩⟩ :=
      refineBuckets_cons_cases bs (hv.bounds b List.mem_cons_self) ha
    · rw [heq] at h
      obtain rfl := Except.error.inj h
      exact .inl ⟨t, ht, hv.not_covers_of_lt hlt, rfl⟩
    · rw [heq] at h
      obtain rfl := Except.error.inj h
      exact .inr ⟨b, List.mem_cons_self, hf⟩
    · rw [heq] at h
      have hd : Ascending D (ts.dropWhile fun t => D.le t.value b.upper) :=
        ha.sublist (List.dropWhile_sublist _)
      obtain ⟨t, ht, hnone, rfl⟩ | ⟨c, hc, hf⟩ := ih hv.tail hd (map_eq_error_iff.1 h)
      · rw [dropWhile_eq_filter (ha.le_bound b.upper)] at ht
        obtain ⟨ht, hle⟩ := List.mem_filter.1 ht
        refine .inl ⟨t, ht, ?_, rfl⟩
        intro hcov
        obtain hbt | hcov := (List.exists_mem_cons_iff ..).1 hcov
        · simp [(contains_iff.1 hbt).2] at hle
        · exact hnone hcov
      · rw [talliesIn_dropWhile ha (hv.lt_of_mem hc)] at hf
        exact .inr ⟨c, List.mem_cons_of_mem _ hc, hf⟩

end CatalogStats.Histogram
