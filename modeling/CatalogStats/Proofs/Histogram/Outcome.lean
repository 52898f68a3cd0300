import CatalogStats.Proofs.Histogram.Groups

/-!
# Proofs/Histogram/Outcome — when refining succeeds, and what it gives

A refined histogram has one group of buckets for each bucket, and the two checks at its end, of the
invariant and of the total, are decided by the groups (`refine_eq_ok_iff`).  What the frequencies of
the groups lack or have in excess is what the notes say (`total_add_notes`).
-/

namespace CatalogStats.Histogram

variable {α : Type} {D : Domain α} {h s : Histogram D} {bs : List (Bucket α)} {b : Bucket α}
  {t : Tally α} {tallies ts : List (Tally α)} {g pieces : List (Bucket α)} {n : Note α}

/-! ## One bucket -/

/-- At most one of several distinct values lies in an exact bucket. -/
theorem talliesIn_of_isExact (ha : Ascending D ts) (hb : b.isExact D = true)
    (hne : talliesIn D b ts ≠ []) : ∃ t, talliesIn D b ts = [t] := by
  cases hts : talliesIn D b ts with
  | nil => exact absurd hts hne
  | cons t us =>
    cases us with
    | nil => exact ⟨t, rfl⟩
    | cons u us =>
      have hasc : Ascending D (t :: u :: us) := hts ▸ ha.talliesIn
      have hlt : D.lt t.value u.value = true := List.rel_of_pairwise_cons hasc List.mem_cons_self
      have ht := (mem_talliesIn.1 (hts ▸ List.mem_cons_self : t ∈ talliesIn D b ts)).2
      have hu := (mem_talliesIn.1
        (hts ▸ List.mem_cons_of_mem _ List.mem_cons_self : u ∈ talliesIn D b ts)).2
      have hsame : D.same t.value u.value = true :=
        Domain.same_trans (Domain.same_symm (same_of_isExact hb ht)) (same_of_isExact hb hu)
      cases (Domain.not_same_of_lt hlt).symm.trans hsame

/-- **What a bucket becomes**: itself, a counted value, or the pieces of a cut. -/
theorem refinesTo_iff (ha : Ascending D ts) :
    RefinesTo D ts b g ↔ (talliesIn D b ts = [] ∧ g = [b]) ∨
      (∃ t, talliesIn D b ts = [t] ∧ b.isExact D = true ∧ t.count.toNat ≤ b.frequency ∧
        g = [.single t.value t.count.toNat]) ∨
      talliesIn D b ts ≠ [] ∧ b.isExact D = false ∧ cut D b (talliesIn D b ts) = .ok g := by
  rw [RefinesTo]
  cases hb : b.isExact D with
  | true =>
    by_cases hne : talliesIn D b ts = []
    · simp only [hne, refineBucket, Except.ok.injEq, eq_comm]
      simp
    · obtain ⟨t, ht⟩ := talliesIn_of_isExact ha hb hne
      simp only [ht, refineBucket, hb, if_true]
      by_cases hlt : b.frequency < t.count.toNat
      · simp [hlt, Nat.not_le.2 hlt]
      · simp [hlt, Nat.not_lt.1 hlt, eq_comm]
  | false =>
    cases hts : talliesIn D b ts with
    | nil => simp [refineBucket, eq_comm]
    | cons t us => simp [refineBucket, hb]

/-! ## Totals

A note is taken where an exact count is less than the frequency of its bucket, and the difference is
all that a group lacks. -/

/-- A bucket is noted at most once, if its frequency is above the exact count. -/
theorem notesAt_cases (ts : List (Tally α)) (b : Bucket α) : notesAt D ts b = [] ∨
    ∃ t : Tally α, t.count.toNat < b.frequency ∧
      notesAt D ts b = [⟨t.value, b.frequency, t.count.toNat⟩] := by
  unfold notesAt
  cases talliesIn D b ts with
  | nil => exact .inl rfl
  | cons t us =>
    rw [refineBucket]
    split
    case isFalse => exact .inl rfl
    case isTrue =>
    split
    case isTrue => exact .inl rfl
    case isFalse hle =>
      by_cases heq : t.count.toNat = b.frequency
      · exact .inl (if_pos heq)
      · exact .inr ⟨t, Nat.lt_of_le_of_ne (Nat.not_lt.1 hle) heq, if_neg heq⟩

theorem count_lt_of_mem_notesAt (hn : n ∈ notesAt D ts b) : n.count < n.frequency := by
  obtain hnil | ⟨t, hlt, hnotes⟩ := notesAt_cases ts b
  · rw [hnil] at hn
    cases hn
  · rw [hnotes] at hn
    exact List.mem_singleton.1 hn ▸ hlt

section Totals

variable (hspan : ∀ a c, 0 < D.span a c)
include hspan

/-- **A bucket and its group hold as many rows**, up to the notes. -/
theorem total_of_refinesTo (ha : Ascending D ts) (h : RefinesTo D ts b g) :
    Bucket.total g + sumOf ((notesAt D ts b).map Note.frequency) =
      b.frequency + sumOf ((notesAt D ts b).map Note.count) := by
  rw [notesAt]
  obtain ⟨hts, rfl⟩ | ⟨t, hts, hb, hle, rfl⟩ | ⟨hts, hb, hcut⟩ := (refinesTo_iff ha).1 h
  · rw [hts]
    rfl
  · rw [hts, refineBucket, if_pos hb, if_neg (Nat.not_lt.2 hle)]
    by_cases heq : t.count.toNat = b.frequency
    · simp [heq, Bucket.total, Bucket.single]
    · simp [heq, Bucket.total, Bucket.single, sumOf_cons]
      omega
  · have htotal := total_of_cut hspan hcut
    obtain ⟨t, us, hts'⟩ := List.exists_cons_of_ne_nil hts
    rw [hts', refineBucket, if_neg (Bool.eq_false_iff.1 hb), htotal]
    rfl

/-- …and so do all groups together. -/
theorem total_flatten (ha : Ascending D ts) {groups : List (List (Bucket α))}
    (h : List.Forall₂ (RefinesTo D ts) bs groups) :
    Bucket.total groups.flatten + sumOf ((bs.flatMap (notesAt D ts)).map Note.frequency) =
      Bucket.total bs + sumOf ((bs.flatMap (notesAt D ts)).map Note.count) := by
  induction h with
  | nil => rfl
  | cons hg _ ih =>
    have hfirst := total_of_refinesTo hspan ha hg
    rw [List.flatten_cons, Bucket.total_append, List.flatMap_cons, List.map_append, List.map_append,
      sumOf_append, sumOf_append, Bucket.total]
    omega

end Totals

/-! ## The range of a histogram -/

/-- The minimum is where a bucket starts, and none starts before it. -/
theorem min?_spec {m : α} (hm : h.min? = some m) :
    (∃ b ∈ h.buckets, b.lower = m) ∧ ∀ b ∈ h.buckets, D.le m b.lower = true := by
  have hv := h.valid
  rw [min?] at hm
  cases hbs : h.buckets with
  | nil =>
    rw [hbs] at hm
    cases hm
  | cons b bs =>
    rw [hbs] at hm hv
    obtain rfl := Option.some.inj hm
    exact ⟨⟨b, List.mem_cons_self, rfl⟩, fun c hc => hv.lower_le hc⟩

/-- The maximum is where a bucket ends, and none ends after it. -/
theorem max?_spec {m : α} (hm : h.max? = some m) :
    (∃ b ∈ h.buckets, b.upper = m) ∧ ∀ b ∈ h.buckets, D.le b.upper m = true := by
  obtain ⟨b, hb, rfl⟩ := Option.map_eq_some_iff.1 hm
  obtain ⟨bs, hbs⟩ := List.getLast?_eq_some_iff.1 hb
  have hmem : b ∈ h.buckets := List.mem_of_getLast? hb
  have hv : Valid D (bs ++ [b]) := hbs ▸ h.valid
  exact ⟨⟨b, hmem, rfl⟩, fun c hc => hv.upper_le (hbs ▸ hc)⟩

theorem min?_eq_none_iff : h.min? = none ↔ h.buckets = [] := by
  rw [min?, Option.map_eq_none_iff, List.head?_eq_none_iff]

theorem max?_eq_none_iff : h.max? = none ↔ h.buckets = [] := by
  rw [max?, Option.map_eq_none_iff, List.getLast?_eq_none_iff]

/-- A value lies between the minimum and the maximum. -/
def InRange (h : Histogram D) (v : α) : Prop :=
  ∃ lower upper, h.min? = some lower ∧ h.max? = some upper ∧
    D.le lower v = true ∧ D.le v upper = true

theorem inRange_of_covers {v : α} (hcov : Covers D h.buckets v) : h.InRange v := by
  obtain ⟨b, hb, hbv⟩ := hcov
  have hne : h.buckets ≠ [] := List.ne_nil_of_mem hb
  obtain ⟨lower, hmin⟩ := Option.ne_none_iff_exists'.1 (min?_eq_none_iff.not.2 hne)
  obtain ⟨upper, hmax⟩ := Option.ne_none_iff_exists'.1 (max?_eq_none_iff.not.2 hne)
  exact ⟨lower, upper, hmin, hmax,
    Domain.le_trans ((min?_spec hmin).2 b hb) (contains_iff.1 hbv).1,
    Domain.le_trans (contains_iff.1 hbv).2 ((max?_spec hmax).2 b hb)⟩

/-- **Values are refused for their range** when one lies outside it. -/
theorem rangeFault?_eq_none_iff : h.rangeFault? ts = none ↔ ∀ t ∈ ts, h.InRange t.value := by
  rw [rangeFault?]
  split
  case h_1 lower upper hmin hmax =>
    have hiff : ∀ v, h.InRange v ↔ D.le lower v = true ∧ D.le v upper = true := by
      intro v
      simp only [InRange, hmin, hmax, Option.some.injEq, exists_and_left, exists_eq_left']
    simp only [hiff, Option.map_eq_none_iff, List.find?_eq_none, Bool.not_eq_true,
      Bool.or_eq_false_iff, Domain.not_lt]
  case h_2 hnot =>
    have hno : ∀ v, ¬ h.InRange v := fun v ⟨lower, upper, hmin, hmax, _⟩ =>
      hnot lower upper hmin hmax
    simp only [hno, Option.map_eq_none_iff, List.head?_eq_none_iff, List.eq_nil_iff_forall_not_mem]

/-! ## Refining a histogram -/

theorem eq_of_buckets_eq (hs : s.buckets = h.buckets) : s = h := by
  obtain ⟨bs, hv⟩ := s
  obtain rfl : bs = h.buckets := hs
  rfl

/-- A histogram is rebuilt from its own buckets if it has the expected total. -/
theorem rebuild_eq_ok_iff {notes : List (Note α)} :
    h.rebuild notes pieces = .ok s ↔ s.buckets = pieces ∧ s.total = h.expectedTotal notes := by
  rw [rebuild, bind_eq_ok_iff]
  constructor
  · rintro ⟨r, hr, hs⟩
    obtain ⟨_, hcheck, hs⟩ := bind_eq_ok_iff.1 hs
    obtain rfl := Except.ok.inj hs
    rw [checkTotal] at hcheck
    split at hcheck
    case isTrue htotal => exact ⟨buckets_of_ofBuckets hr, htotal⟩
    case isFalse => cases hcheck
  · rintro ⟨rfl, htotal⟩
    refine ⟨s, ofBuckets_of_valid s.valid, ?_⟩
    rw [checkTotal, if_pos htotal]
    rfl

/-- Without counted values every bucket stays. -/
theorem forall₂_refinesTo_nil {groups : List (List (Bucket α))} :
    List.Forall₂ (RefinesTo D []) bs groups ↔ groups = bs.map fun b => [b] := by
  induction bs generalizing groups with
  | nil => exact List.forall₂_nil_left_iff
  | cons b bs ih =>
    rw [List.forall₂_cons_left_iff, List.map_cons]
    constructor
    · rintro ⟨g, rest, hg, hrest, rfl⟩
      rw [ih.1 hrest, ← Except.ok.inj hg]
    · rintro rfl
      exact ⟨[b], _, rfl, ih.2 rfl, rfl⟩

theorem refine_nil : h.refine [] = ⟨[], .ok h⟩ := rfl

/-- **Values of which one is listed twice** are refused. -/
theorem refine_of_distinct_eq_error {f : Fault α} (hne : tallies ≠ [])
    (hd : distinct D tallies = .error f) : h.refine tallies = ⟨[], .error f⟩ := by
  rw [refine, if_neg (by rwa [List.isEmpty_iff]), hd]

/-- …and so are values outside the range. -/
theorem refine_of_rangeFault?_eq_some {f : Fault α} (hne : tallies ≠ [])
    (hrep : ¬ Repeats D tallies) (hr : h.rangeFault? (sorted D tallies) = some f) :
    h.refine tallies = ⟨[], .error f⟩ := by
  rw [refine, if_neg (by rwa [List.isEmpty_iff]), distinct_eq_ok_iff.2 ⟨rfl, hrep⟩]
  simp only [hr]

/-- **All others are handed to the buckets**, and the histogram is rebuilt from what these become. -/
theorem refine_of_rangeFault?_eq_none (hne : tallies ≠ []) (hrep : ¬ Repeats D tallies)
    (hr : h.rangeFault? (sorted D tallies) = none) :
    h.refine tallies =
      let refined := refineBuckets D h.buckets (sorted D tallies)
      ⟨refined.notes, refined.result >>= h.rebuild refined.notes⟩ := by
  rw [refine, if_neg (by rwa [List.isEmpty_iff]), distinct_eq_ok_iff.2 ⟨rfl, hrep⟩]
  simp only [hr]
  rfl

section Refine

variable (hspan : ∀ a c, 0 < D.span a c)
include hspan

/-- The expected total is that of the groups. -/
theorem expectedTotal_eq (ha : Ascending D ts) {groups : List (List (Bucket α))}
    (hg : List.Forall₂ (RefinesTo D ts) h.buckets groups) :
    h.expectedTotal (h.buckets.flatMap (notesAt D ts)) = Bucket.total groups.flatten := by
  have htotal := total_flatten hspan ha hg
  rw [expectedTotal, total]
  omega

/-- **Refining succeeds** exactly when no value is listed twice, each lies in a bucket, and each bucket
has a group; the buckets of the result are those of the groups, in order. -/
theorem refine_eq_ok_iff :
    (h.refine tallies).result = .ok s ↔ ¬ Repeats D tallies ∧
      (∀ t ∈ tallies, Covers D h.buckets t.value) ∧
      ∃ groups, List.Forall₂ (RefinesTo D (sorted D tallies)) h.buckets groups ∧
        s.buckets = groups.flatten := by
  by_cases hnil : tallies = []
  · subst hnil
    have hsorted : sorted D [] = [] := List.mergeSort_nil
    simp only [hsorted, forall₂_refinesTo_nil, exists_eq_left]
    rw [← List.flatMap_def, List.flatMap_singleton', refine_nil]
    constructor
    · intro hs
      refine ⟨fun hrep => hrep .nil, nofun, ?_⟩
      rw [← Except.ok.inj hs]
    · rintro ⟨_, _, hs⟩
      exact congrArg Except.ok (eq_of_buckets_eq hs).symm
  by_cases hrep : Repeats D tallies
  · obtain ⟨t, _, _, hd⟩ := distinct_of_repeats hrep
    rw [refine_of_distinct_eq_error hnil hd]
    exact ⟨nofun, fun h => absurd hrep h.1⟩
  have ha : Ascending D (sorted D tallies) := ascending_sorted_iff.2 hrep
  rw [← forall_mem_sorted (D := D)]
  cases hr : h.rangeFault? (sorted D tallies) with
  | some f =>
    rw [refine_of_rangeFault?_eq_some hnil hrep hr]
    constructor
    · intro hs
      cases hs
    · rintro ⟨_, hcov, _⟩
      rw [rangeFault?_eq_none_iff.2 fun t ht => inRange_of_covers (hcov t ht)] at hr
      cases hr
  | none =>
    rw [refine_of_rangeFault?_eq_none hnil hrep hr, bind_eq_ok_iff]
    constructor
    · rintro ⟨pieces, hpieces, hs⟩
      obtain ⟨hcov, groups, hg, rfl⟩ := (refineBuckets_eq_ok_iff h.valid ha).1 hpieces
      exact ⟨hrep, hcov, groups, hg, (rebuild_eq_ok_iff.1 hs).1⟩
    · rintro ⟨_, hcov, groups, hg, hs⟩
      have hpieces := (refineBuckets_eq_ok_iff h.valid ha).2 ⟨hcov, groups, hg, rfl⟩
      refine ⟨groups.flatten, hpieces, rebuild_eq_ok_iff.2 ⟨hs, ?_⟩⟩
      rw [notes_refineBuckets h.valid ha hpieces, expectedTotal_eq hspan ha hg, total, hs]

/-- …and the notes are those taken at the buckets. -/
theorem notes_refine (hs : (h.refine tallies).result = .ok s) :
    (h.refine tallies).notes = h.buckets.flatMap (notesAt D (sorted D tallies)) := by
  by_cases hnil : tallies = []
  · subst hnil
    have hsorted : sorted D [] = [] := List.mergeSort_nil
    rw [hsorted]
    exact (List.flatMap_eq_nil_iff.2 fun _ _ => rfl).symm
  obtain ⟨hrep, hcov, groups, hg, _⟩ := (refine_eq_ok_iff hspan).1 hs
  have ha : Ascending D (sorted D tallies) := ascending_sorted_iff.2 hrep
  rw [← forall_mem_sorted (D := D)] at hcov
  have hrange := rangeFault?_eq_none_iff.2 fun t ht => inRange_of_covers (hcov t ht)
  rw [refine_of_rangeFault?_eq_none hnil hrep hrange]
  exact notes_refineBuckets h.valid ha
    ((refineBuckets_eq_ok_iff h.valid ha).2 ⟨hcov, groups, hg, rfl⟩)

/-- A note is taken only where rows disappear. -/
theorem count_lt_of_mem_notes (hs : (h.refine tallies).result = .ok s)
    (hn : n ∈ (h.refine tallies).notes) : n.count < n.frequency := by
  rw [notes_refine hspan hs] at hn
  obtain ⟨b, _, hn⟩ := List.mem_flatMap.1 hn
  exact count_lt_of_mem_notesAt hn

/-- **No row appears or disappears without a note.** -/
theorem total_add_notes (hs : (h.refine tallies).result = .ok s) :
    s.total + sumOf ((h.refine tallies).notes.map fun n => n.frequency - n.count) = h.total := by
  obtain ⟨hrep, _, groups, hg, hbuckets⟩ := (refine_eq_ok_iff hspan).1 hs
  have htotal := total_flatten hspan (ascending_sorted_iff.2 hrep) hg
  rw [← hbuckets, ← notes_refine hspan hs] at htotal
  have hlt : ∀ n ∈ (h.refine tallies).notes, n.count < n.frequency := fun n hn =>
    count_lt_of_mem_notes hspan hs hn
  generalize (h.refine tallies).notes = notes at hlt htotal ⊢
  have hsplit : sumOf (notes.map Note.frequency) =
      sumOf (notes.map Note.count) + sumOf (notes.map fun n => n.frequency - n.count) := by
    rw [← sumOf_map_add]
    apply congrArg sumOf
    apply List.map_congr_left
    intro n hn
    have := hlt n hn
    omega
  rw [total, total]
  omega

end Refine

/-! ## The counts alone -/

/-- The histogram of some counts has one exact bucket for each, in ascending order. -/
theorem ofTallies_eq_ok_iff : ofTallies D tallies = .ok s ↔ ¬ Repeats D tallies ∧
    s.buckets = (sorted D tallies).map fun t => .single t.value t.count.toNat := by
  rw [ofTallies, bind_eq_ok_iff]
  simp only [distinct_eq_ok_iff]
  constructor
  · rintro ⟨_, ⟨rfl, hrep⟩, hs⟩
    exact ⟨hrep, buckets_of_ofBuckets hs⟩
  · rintro ⟨hrep, hs⟩
    exact ⟨_, ⟨rfl, hrep⟩, hs ▸ ofBuckets_of_valid s.valid⟩

end CatalogStats.Histogram
