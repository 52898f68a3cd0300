import CatalogStats.Proofs.Histogram.Replacement
import CatalogStats.Proofs.Histogram.Runs

/-!
# Proofs/Histogram/Success — exactly when refining succeeds

Where the steps of a domain are strict and all its values form a lattice, cutting fails only for the
counts: they are more than the bucket holds, or less although every value of the bucket is counted
(`exists_refinesTo_iff`).  The checks behind the cut never fail, so these conditions decide, and every
fault says what is wrong (`refine_outcome`).
-/

namespace CatalogStats.Histogram

variable {α : Type} {D : Domain α} {on : α → Prop} {h s : Histogram D} {b : Bucket α} {f : Fault α}
  {stop v : α} {t : Tally α} {tallies ts : List (Tally α)} {bs : List (Bucket α)}
  {pieces : List (Segment α)} {groups : List (List (Bucket α))}

/-! ## Conditions -/

/-- Every value of a bucket is among the counted values. -/
def AllCounted (D : Domain α) (tallies : List (Tally α)) (b : Bucket α) : Prop :=
  ∀ v, b.contains D v = true → ∃ t ∈ tallies, D.same v t.value = true

/-- **The counts inside a bucket fit it**: they are at most its frequency, and all of it if they leave
no other value in a bucket that is not exact. -/
def Fits (D : Domain α) (tallies : List (Tally α)) (b : Bucket α) : Prop :=
  countOf (talliesIn D b tallies) ≤ b.frequency ∧
    (b.isExact D = false → AllCounted D tallies b →
      countOf (talliesIn D b tallies) = b.frequency)

/-- **What is true when a fault is reported.** -/
inductive Truthful (D : Domain α) (bs : List (Bucket α)) (tallies : List (Tally α)) :
    Fault α → Prop
  | uncovered (t : Tally α) (ht : t ∈ tallies) (h : ¬ Covers D bs t.value) :
    Truthful D bs tallies (.uncovered t.value)
  | overdrawn (b : Bucket α) (hb : b ∈ bs)
    (h : b.frequency < countOf (talliesIn D b tallies)) :
    Truthful D bs tallies (.overdrawn b (countOf (talliesIn D b tallies)))
  | tooMany (b : Bucket α) (hb : b ∈ bs)
    (h : 18446744073709551616 ≤ countOf (talliesIn D b tallies)) :
    Truthful D bs tallies (.tooMany b.lower b.upper)
  | unplaced (b : Bucket α) (hb : b ∈ bs) (residual : ℕ) (hrange : b.isExact D = false)
    (hall : AllCounted D tallies b) (hpos : 0 < residual)
    (h : b.frequency = countOf (talliesIn D b tallies) + residual) :
    Truthful D bs tallies (.unplaced b residual)

section Perm

variable (hp : ts.Perm tallies)
include hp

theorem countOf_talliesIn_perm (b : Bucket α) :
    countOf (talliesIn D b ts) = countOf (talliesIn D b tallies) :=
  countOf_perm (talliesIn_perm hp)

theorem allCounted_perm : AllCounted D ts b ↔ AllCounted D tallies b := by
  simp only [AllCounted, hp.mem_iff]

theorem fits_perm : Fits D ts b ↔ Fits D tallies b := by
  rw [Fits, Fits, allCounted_perm hp, countOf_talliesIn_perm hp]

theorem Truthful.perm (h : Truthful D bs ts f) : Truthful D bs tallies f := by
  cases h with
  | uncovered t ht h => exact .uncovered t (hp.mem_iff.1 ht) h
  | overdrawn b hb h =>
    rw [countOf_talliesIn_perm hp] at h ⊢
    exact .overdrawn b hb h
  | tooMany b hb h => exact .tooMany b hb (countOf_talliesIn_perm hp b ▸ h)
  | unplaced b hb residual hrange hall hpos h =>
    exact .unplaced b hb residual hrange ((allCounted_perm hp).1 hall) hpos
      (countOf_talliesIn_perm hp b ▸ h)

end Perm

/-! ## One bucket -/

/-- A bucket has all its values counted by those inside it. -/
theorem allCounted_talliesIn_iff : AllCounted D (talliesIn D b ts) b ↔ AllCounted D ts b := by
  constructor
  · intro h v hv
    obtain ⟨t, ht, hsame⟩ := h v hv
    exact ⟨t, (mem_talliesIn.1 ht).1, hsame⟩
  · intro h v hv
    obtain ⟨t, ht, hsame⟩ := h v hv
    exact ⟨t, mem_talliesIn.2 ⟨ht, contains_of_same hsame hv⟩, hsame⟩

section Lattice

variable (hD : D.Strict) (L : D.Lattice on) (hon : ∀ v, on v)
include hD L hon

/-- **A cut leaves no range** exactly when every value of the bucket is counted. -/
theorem weights_eq_nil_iff (hb : D.le b.lower b.upper = true) (ha : Ascending D ts)
    (hts : ∀ t ∈ ts, b.contains D t.value = true)
    (h : segments D b.upper (some b.lower) ts = .ok pieces) :
    weights D pieces = [] ↔ AllCounted D ts b := by
  obtain ⟨pieces', hpieces, hruns⟩ := exists_segments_of_bucket (L := L) (hon _) (hon _) hb ha
    fun t ht => ⟨hon _, hts t ht⟩
  obtain rfl := Except.ok.inj (h.symm.trans hpieces)
  have hin : ∀ v, (∃ s ∈ pieces, D.le s.lower v = true ∧ D.le v s.upper = true) ↔
      b.contains D v = true := by
    intro v
    rw [contains_iff, L.le_iff (hon _) (hon _), L.le_iff (hon _) (hon _),
      ← Runs.exists_mem_iff (hon v) hruns]
    simp only [List.mem_map, exists_exists_and_eq_and, Segment.bounds]
  have hcounted : ∀ t, .exact t ∈ pieces ↔ t ∈ ts := by
    intro t
    rw [← mem_counted, counted_segments h]
  constructor
  · intro hw v hv
    obtain ⟨s, hs, hsv⟩ := (hin v).2 hv
    cases s with
    | range l u => exact absurd hw (weights_ne_nil hs)
    | exact t => exact ⟨t, (hcounted t).1 hs, Domain.same_iff_le.2 hsv.symm⟩
  · intro hall
    by_contra hw
    obtain ⟨n, hn⟩ := List.exists_mem_of_ne_nil _ hw
    obtain ⟨l, u, hmem, -⟩ := mem_weights hn
    have hordered := ordered_segments hD (fun _ hl => Option.some.inj hl ▸ hb) ha
      (fun t ht => (contains_iff.1 (hts t ht)).2) h
    -- The start of a range is a value of the bucket, so it would be counted as well.
    have hl : D.le l l = true ∧ D.le l u = true := ⟨Domain.le_refl, hordered.bounds _ hmem⟩
    obtain ⟨t, ht, hsame⟩ := hall l ((hin l).1 ⟨_, hmem, hl⟩)
    cases eq_of_between hordered.ordered hmem ((hcounted t).2 ht) hl
      (Domain.same_iff_le.1 hsame).symm

/-- **A bucket can be refined** exactly when the counts inside it fit it. -/
theorem exists_refinesTo_iff (hb : D.le b.lower b.upper = true)
    (hlt : b.frequency < 18446744073709551616) (ha : Ascending D ts) :
    (∃ g, RefinesTo D ts b g) ↔ (talliesIn D b ts ≠ [] → Fits D ts b) := by
  by_cases hne : talliesIn D b ts = []
  · exact iff_of_true ⟨[b], (refinesTo_iff ha).2 (.inl ⟨hne, rfl⟩)⟩ fun h => absurd hne h
  rw [imp_iff_right hne, Fits]
  simp only [refinesTo_iff ha]
  cases hexact : b.isExact D with
  | true =>
    obtain ⟨t, ht⟩ := talliesIn_of_isExact ha hexact hne
    have hcount : countOf [t] = t.count.toNat := Nat.add_zero _
    simp [ht, hcount]
  | false =>
    have hts : ∀ t ∈ talliesIn D b ts, on t.value ∧ b.contains D t.value = true := fun t ht =>
      ⟨hon _, (mem_talliesIn.1 ht).2⟩
    obtain ⟨pieces, hpieces, -⟩ :=
      exists_segments_of_bucket (L := L) (hon _) (hon _) hb ha.talliesIn hts
    have hw := weights_eq_nil_iff hD L hon hb ha.talliesIn (fun t ht => (hts t ht).2) hpieces
    rw [allCounted_talliesIn_iff] at hw
    constructor
    · rintro ⟨g, ⟨hnil, _⟩ | ⟨_, _, hexact', _⟩ | ⟨_, _, hcut⟩⟩
      · exact absurd hnil hne
      · cases hexact'
      · obtain ⟨_, hle, pieces', hpieces', hres, _⟩ := cut_eq_ok_iff.1 hcut
        obtain rfl := Except.ok.inj (hpieces.symm.trans hpieces')
        exact ⟨hle, fun _ hall => hres (hw.2 hall)⟩
    · rintro ⟨hle, hall⟩
      exact ⟨_, .inr (.inr ⟨hne, rfl, cut_eq_ok_iff.2 ⟨hle.trans_lt hlt, hle, pieces, hpieces,
        fun hnil => hall rfl (hw.1 hnil), rfl⟩⟩)⟩

/-- **A bucket that cannot be refined** says truly why. -/
theorem truthful_of_refineBucket (hbs : b ∈ bs) (hb : D.le b.lower b.upper = true)
    (ha : Ascending D ts) (h : (refineBucket D b (talliesIn D b ts)).result = .error f) :
    Truthful D bs ts f := by
  cases hexact : b.isExact D with
  | true =>
    by_cases hne : talliesIn D b ts = []
    · rw [hne] at h
      cases h
    obtain ⟨t, ht⟩ := talliesIn_of_isExact ha hexact hne
    have hcount : t.count.toNat = countOf (talliesIn D b ts) := by rw [ht]; rfl
    rw [ht, refineBucket, if_pos hexact] at h
    split at h
    case isFalse => cases h
    case isTrue hlt =>
      rw [← Except.error.inj h, hcount]
      exact .overdrawn b hbs (hcount ▸ hlt)
  | false =>
    cases hts : talliesIn D b ts with
    | nil =>
      rw [hts] at h
      cases h
    | cons t us =>
    rw [hts, refineBucket, if_neg (Bool.eq_false_iff.1 hexact), ← hts] at h
    obtain ⟨pieces, hpieces, -⟩ := exists_segments_of_bucket (L := L) (hon _) (hon _) hb
      ha.talliesIn fun t ht => ⟨hon _, (mem_talliesIn.1 ht).2⟩
    obtain ⟨hmany, rfl⟩ | ⟨hlt, rfl⟩ | ⟨hw, hlt, rfl⟩ := fault_of_cut hpieces h
    · exact .tooMany b hbs hmany
    · exact .overdrawn b hbs hlt
    · have hall := (weights_eq_nil_iff hD L hon hb ha.talliesIn
        (fun t ht => (mem_talliesIn.1 ht).2) hpieces).1 hw
      exact .unplaced b hbs _ hexact (allCounted_talliesIn_iff.1 hall) (Nat.sub_pos_of_lt hlt)
        (by omega)

end Lattice

/-! ## The checks behind the cut

A list of groups always passes: the groups stand in order inside their buckets, and the total is the
expected one. -/

section Strict

variable (hD : D.Strict) (hspan : ∀ a c, 0 < D.span a c)
include hD hspan

theorem valid_flatten_of_refinesTo (hv : Valid D bs) (ha : Ascending D ts)
    (hg : List.Forall₂ (RefinesTo D ts) bs groups) : Valid D groups.flatten := by
  refine hv.flatten (Forall₂.imp_mem hg fun b hb g _ hbg =>
    inside_of_refinesTo hD (hv.bounds b hb) ha hbg) ?_
  have htotal := total_flatten hspan ha hg
  have hle : sumOf ((bs.flatMap (notesAt D ts)).map Note.count) ≤
      sumOf ((bs.flatMap (notesAt D ts)).map Note.frequency) := by
    apply sumOf_map_le
    intro n hn
    obtain ⟨b, _, hn⟩ := List.mem_flatMap.1 hn
    exact (count_lt_of_mem_notesAt hn).le
  omega

/-- **Refining succeeds** when every value is covered and every bucket can be refined. -/
theorem exists_refine_eq_ok_iff :
    (∃ s, (h.refine tallies).result = .ok s) ↔ ¬ Repeats D tallies ∧
      (∀ t ∈ tallies, Covers D h.buckets t.value) ∧
      ∀ b ∈ h.buckets, ∃ g, RefinesTo D (sorted D tallies) b g := by
  simp only [refine_eq_ok_iff hspan]
  constructor
  · rintro ⟨s, hrep, hcov, groups, hg, _⟩
    refine ⟨hrep, hcov, fun b hb => ?_⟩
    obtain ⟨g, _, hbg⟩ := exists_right_of_forall₂ hg hb
    exact ⟨g, hbg⟩
  · rintro ⟨hrep, hcov, hall⟩
    obtain ⟨groups, hg⟩ := exists_forall₂ hall
    have hv := valid_flatten_of_refinesTo hD hspan h.valid (ascending_sorted_iff.2 hrep) hg
    exact ⟨⟨groups.flatten, hv⟩, hrep, hcov, groups, hg, rfl⟩

/-- A fault of refining distinct values in the range is that of the walk along the buckets. -/
theorem refineBuckets_eq_error (hne : tallies ≠ []) (hrep : ¬ Repeats D tallies)
    (hrange : ∀ t ∈ tallies, h.InRange t.value) (hf : (h.refine tallies).result = .error f) :
    (refineBuckets D h.buckets (sorted D tallies)).result = .error f := by
  have ha : Ascending D (sorted D tallies) := ascending_sorted_iff.2 hrep
  have hnone : h.rangeFault? (sorted D tallies) = none :=
    rangeFault?_eq_none_iff.2 fun t ht => hrange t (mem_sorted.1 ht)
  cases hw : (refineBuckets D h.buckets (sorted D tallies)).result with
  | error f' =>
    rw [refine_of_rangeFault?_eq_none hne hrep hnone] at hf
    dsimp only at hf
    rw [hw] at hf
    exact congrArg _ (Except.error.inj hf)
  | ok pieces =>
    obtain ⟨hcov, groups, hg, rfl⟩ := (refineBuckets_eq_ok_iff h.valid ha).1 hw
    have hv := valid_flatten_of_refinesTo hD hspan h.valid ha hg
    have hok := (refine_eq_ok_iff (s := ⟨_, hv⟩) hspan).2
      ⟨hrep, fun t ht => hcov t (mem_sorted.2 ht), groups, hg, rfl⟩
    cases hf.symm.trans hok

end Strict

/-! ## Values outside the range -/

/-- **A value outside the range** is named together with it. -/
theorem rangeFault?_of_outside {lower upper : α} (hmin : h.min? = some lower)
    (hmax : h.max? = some upper)
    (hout : ∃ t ∈ ts, (D.lt t.value lower || D.lt upper t.value) = true) :
    ∃ t ∈ ts, (D.lt t.value lower || D.lt upper t.value) = true ∧
      h.rangeFault? ts = some (.outside t.value lower upper) := by
  have hsome := List.find?_isSome.2 hout
  obtain ⟨t, ht⟩ := Option.isSome_iff_exists.1 hsome
  have hlt := List.find?_some (p := fun t : Tally α => D.lt t.value lower || D.lt upper t.value) ht
  exact ⟨t, List.mem_of_find?_eq_some ht, hlt, by simp only [rangeFault?, hmin, hmax, ht]; rfl⟩

/-- …and where there is no bucket, the first value is. -/
theorem rangeFault?_of_buckets_eq_nil (hnil : h.buckets = []) (hne : ts ≠ []) :
    ∃ t ∈ ts, h.rangeFault? ts = some (.uncovered t.value) := by
  obtain ⟨t, us, rfl⟩ := List.exists_cons_of_ne_nil hne
  refine ⟨t, List.mem_cons_self, ?_⟩
  simp only [rangeFault?, min?_eq_none_iff.2 hnil]
  rfl

/-! ## The outcome -/

section Lattice

variable (hD : D.Strict) (hspan : ∀ a c, 0 < D.span a c) (L : D.Lattice on) (hon : ∀ v, on v)
include hD hspan L hon

/-- **Distinct values are accepted** exactly when each is covered and the counts fit their buckets. -/
theorem exists_refine_eq_ok_iff_fits (hrep : ¬ Repeats D tallies) :
    (∃ s, (h.refine tallies).result = .ok s) ↔ (∀ t ∈ tallies, Covers D h.buckets t.value) ∧
      ∀ b ∈ h.buckets, talliesIn D b tallies ≠ [] → Fits D tallies b := by
  have ha : Ascending D (sorted D tallies) := ascending_sorted_iff.2 hrep
  have hp := sorted_perm (D := D) tallies
  have hbucket : ∀ b ∈ h.buckets, (∃ g, RefinesTo D (sorted D tallies) b g) ↔
      (talliesIn D b tallies ≠ [] → Fits D tallies b) := by
    intro b hb
    have hlt := (Bucket.frequency_le_total hb).trans_lt h.valid.total_lt
    have hnil : talliesIn D b (sorted D tallies) = [] ↔ talliesIn D b tallies = [] :=
      eq_nil_iff_of_perm (talliesIn_perm hp)
    rw [exists_refinesTo_iff hD L hon (h.valid.bounds b hb) hlt ha, fits_perm hp, Ne, hnil]
  rw [exists_refine_eq_ok_iff hD hspan, and_iff_right hrep]
  exact and_congr_right fun _ => forall₂_congr hbucket

/-- …and otherwise the fault is true of them, unless one lies outside the range. -/
theorem truthful_of_refine (hrep : ¬ Repeats D tallies)
    (hrange : ∀ t ∈ tallies, h.InRange t.value) (hf : (h.refine tallies).result = .error f) :
    Truthful D h.buckets tallies f := by
  have ha : Ascending D (sorted D tallies) := ascending_sorted_iff.2 hrep
  have hne : tallies ≠ [] := by
    rintro rfl
    cases hf
  have hwalk := refineBuckets_eq_error hD hspan hne hrep hrange hf
  obtain ⟨t, ht, hnone, rfl⟩ | ⟨b, hb, hf⟩ := fault_of_refineBuckets h.valid ha hwalk
  · exact .uncovered t (mem_sorted.1 ht) hnone
  · exact (truthful_of_refineBucket hD L hon hb (h.valid.bounds b hb) ha hf).perm (sorted_perm _)

end Lattice

/-- **The outcome of refining** a histogram of whole numbers, dates or characters. -/
theorem refine_outcome {k : Kind} (hdec : ∀ scale, k ≠ .decimal scale) (hstr : k ≠ .string)
    (h : Histogram k.domain) (tallies : List (Tally k.Value)) :
    (tallies = [] → (h.refine tallies).result = .ok h) ∧
    (Repeats k.domain tallies → ∃ t ∈ tallies,
      2 ≤ tallies.countP (fun u => k.domain.same t.value u.value) ∧
      (h.refine tallies).result = .error (.repeated t.value)) ∧
    (¬ Repeats k.domain tallies → tallies ≠ [] → h.buckets = [] →
      ∃ t ∈ tallies, (h.refine tallies).result = .error (.uncovered t.value)) ∧
    (¬ Repeats k.domain tallies → ∀ lower upper, h.min? = some lower → h.max? = some upper →
      (∃ t ∈ tallies, (k.domain.lt t.value lower || k.domain.lt upper t.value) = true) →
      ∃ t ∈ tallies, (k.domain.lt t.value lower || k.domain.lt upper t.value) = true ∧
        (h.refine tallies).result = .error (.outside t.value lower upper)) ∧
    (¬ Repeats k.domain tallies → (∀ t ∈ tallies, h.InRange t.value) →
      ((∃ s, (h.refine tallies).result = .ok s) ↔
        (∀ t ∈ tallies, Covers k.domain h.buckets t.value) ∧
        ∀ b ∈ h.buckets, talliesIn k.domain b tallies ≠ [] → Fits k.domain tallies b) ∧
      ∀ f, (h.refine tallies).result = .error f → Truthful k.domain h.buckets tallies f) := by
  have hD : k.domain.Strict := Kind.strict hdec
  have hon : ∀ v, k.OnGrid v := Kind.onGrid hdec
  refine ⟨?_, ?_, ?_, ?_, ?_⟩
  · rintro rfl
    rfl
  · intro hrep
    obtain ⟨t, ht, hcount, hd⟩ := distinct_of_repeats hrep
    rw [refine_of_distinct_eq_error (List.ne_nil_of_mem ht) hd]
    exact ⟨t, ht, hcount, rfl⟩
  · intro hrep hne hnil
    have hne' : sorted k.domain tallies ≠ [] := (eq_nil_iff_of_perm (sorted_perm tallies)).not.2 hne
    obtain ⟨t, ht, hr⟩ := rangeFault?_of_buckets_eq_nil hnil hne'
    rw [refine_of_rangeFault?_eq_some hne hrep hr]
    exact ⟨t, mem_sorted.1 ht, rfl⟩
  · intro hrep lower upper hmin hmax hout
    obtain ⟨t, ht, hlt, hr⟩ := rangeFault?_of_outside hmin hmax (exists_mem_sorted.2 hout)
    have ht := mem_sorted.1 ht
    rw [refine_of_rangeFault?_eq_some (List.ne_nil_of_mem ht) hrep hr]
    exact ⟨t, ht, hlt, rfl⟩
  · intro hrep hrange
    refine ⟨exists_refine_eq_ok_iff_fits hD k.span_pos (k.lattice hstr) hon hrep, ?_⟩
    intro f hf
    exact truthful_of_refine hD k.span_pos (k.lattice hstr) hon hrep hrange hf

/-- A count that fits a bucket of two values, and one that does not. -/
theorem refine_outcome_letters : ∃ h : Histogram Kind.character.domain,
    h.buckets = [⟨'a', 'b', 5⟩] ∧ (∃ s, (h.refine [⟨'a', 2⟩]).result = .ok s) ∧
    ∃ f, (h.refine [⟨'a', 9⟩]).result = .error f ∧
      Truthful Kind.character.domain h.buckets [⟨'a', 9⟩] f := by
  let h : Histogram Kind.character.domain := ⟨[⟨'a', 'b', 5⟩], by decide, by decide, by decide⟩
  have hrep : ∀ n, ¬ Repeats Kind.character.domain [⟨'a', n⟩] := fun n hrep =>
    hrep (List.pairwise_singleton _ _)
  have hle : Kind.character.domain.le 'a' 'b' = true := by decide
  have hrange : ∀ n, ∀ t ∈ [(⟨'a', n⟩ : Tally Char)], h.InRange t.value := fun n =>
    List.forall_mem_singleton.2 ⟨'a', 'b', rfl, rfl, Domain.le_refl, hle⟩
  have houtcome := fun n =>
    (refine_outcome (k := .character) nofun nofun h [⟨'a', n⟩]).2.2.2.2 (hrep n) (hrange n)
  refine ⟨h, rfl, (houtcome 2).1.2 ⟨?_, ?_⟩, ?_⟩
  · exact List.forall_mem_singleton.2 ⟨_, List.mem_singleton_self _, by decide⟩
  · refine List.forall_mem_singleton.2 fun _ => ⟨by decide, fun _ hall => ?_⟩
    obtain ⟨t, ht, hsame⟩ := hall 'b' (by decide)
    rw [List.mem_singleton.1 ht] at hsame
    cases hsame
  · cases hf : (h.refine [⟨'a', 9⟩]).result with
    | error f => exact ⟨f, rfl, (houtcome 9).2 f hf⟩
    | ok s =>
      obtain ⟨_, hfits⟩ := (houtcome 9).1.1 ⟨s, hf⟩
      have hle := (hfits ⟨'a', 'b', 5⟩ (List.mem_singleton_self _) (by decide)).1
      exact absurd hle (by decide)

end CatalogStats.Histogram
