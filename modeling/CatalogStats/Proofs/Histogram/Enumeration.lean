import CatalogStats.Proofs.Histogram.Exactness
import CatalogStats.Proofs.Histogram.Statistics

/-!
# Proofs/Histogram/Enumeration — exact buckets that enumerate a collection

Refining the histogram of statistics by the frequent values gives every distinct value of the
collection an exact bucket (`single_mem_of_refine`).  Another exact bucket holds a value that is not
in the collection and is **cut off** on both sides; where none is, and the first bucket starts at
the minimum, the exact buckets enumerate the collection (`exactPart_of_refine`).  On a lattice they
do so in no other case (`length_exactPart_eq_iff`).
-/

namespace CatalogStats.Histogram

variable {α : Type} {D : Domain α} {on : α → Prop} {M : Multiset α} {minimum v : α}
  {rows : List (Quantile α)} {tallies : List (Tally α)} {h s : Histogram D} {b p : Bucket α}

/-- **A value cut off from both sides**: it is no value of the collection, stands right after one or
after a boundary, and is a boundary or stands right before a value of the collection. -/
structure CutOff (D : Domain α) (M : Multiset α) (rows : List (Quantile α)) (v : α) : Prop where
  not_mem : v ∉ M
  after : (∃ u ∈ M, D.next? u = some v) ∨ ∃ q ∈ rows, D.next? q.boundary = some v
  before : (∃ u ∈ M, D.previous? u = some v) ∨ ∃ q ∈ rows, q.boundary = v

/-! ## The exact buckets of a refined histogram -/

/-- An exact bucket leaves a value alone only where nothing is counted inside it. -/
theorem Alone.talliesIn_eq_nil {ts : List (Tally α)} (hb : b.isExact D = true)
    (hv : Alone D b (talliesIn D b ts) v) : talliesIn D b ts = [] := by
  refine List.eq_nil_iff_forall_not_mem.2 fun t ht => ?_
  have hbt := same_of_isExact hb (mem_talliesIn.1 ht).2
  have hbv := same_of_isExact hb hv.contains
  cases (hv.not_counted t ht).symm.trans (Domain.same_trans (Domain.same_symm hbt) hbv)

section Refine

variable (hspan : ∀ a c, 0 < D.span a c)
include hspan

/-- An exact bucket holds a counted value, was exact before, or holds a value that is left alone. -/
theorem exact_cases_of_refine (hs : (h.refine tallies).result = .ok s) (hp : p ∈ s.buckets)
    (hexact : p.isExact D = true) : (∃ t ∈ tallies, p = .single t.value t.count.toNat) ∨
      p ∈ h.buckets ∨ ∃ b ∈ h.buckets, Alone D b (talliesIn D b tallies) p.lower := by
  obtain ⟨hrep, _, groups, hg, hbuckets⟩ := (refine_eq_ok_iff hspan).1 hs
  have ha : Ascending D (sorted D tallies) := ascending_sorted_iff.2 hrep
  rw [hbuckets] at hp
  obtain ⟨g, hgm, hpg⟩ := List.mem_flatten.1 hp
  obtain ⟨b, hb, hbg⟩ := exists_left_of_forall₂ hg hgm
  have hgv : Valid D g := s.valid.sublist (hbuckets ▸ List.sublist_flatten_of_mem hgm)
  obtain rfl | ⟨t, ht, rfl⟩ | ⟨_, hv⟩ :=
    exact_of_refinesTo ha (h.valid.bounds b hb) hbg hgv hpg hexact
  · exact .inr (.inl hb)
  · exact .inl ⟨t, mem_sorted.1 ht, rfl⟩
  · refine .inr (.inr ⟨b, hb, hv.of_mem_iff fun t => ?_⟩)
    rw [mem_talliesIn, mem_sorted, mem_talliesIn]

/-- **A value that is left alone has an exact bucket.** -/
theorem exists_exact_of_alone (hs : (h.refine tallies).result = .ok s) (hb : b ∈ h.buckets)
    (hv : Alone D b (talliesIn D b tallies) v) :
    ∃ p ∈ s.buckets, p.isExact D = true ∧ D.same p.lower v = true := by
  obtain ⟨hrep, _, groups, hg, hbuckets⟩ := (refine_eq_ok_iff hspan).1 hs
  have ha : Ascending D (sorted D tallies) := ascending_sorted_iff.2 hrep
  obtain ⟨g, hgm, hbg⟩ := exists_right_of_forall₂ hg hb
  have hv : Alone D b (talliesIn D b (sorted D tallies)) v := hv.of_mem_iff fun t => by
    rw [mem_talliesIn, mem_talliesIn, mem_sorted]
  cases hexact : b.isExact D with
  | false =>
    obtain ⟨l, u, n, hp, hl, hu⟩ := exists_range_of_refinesTo ha hexact hbg hv
    exact ⟨_, hbuckets ▸ List.mem_flatten.2 ⟨g, hgm, hp⟩, Domain.same_trans hl hu, hl⟩
  | true =>
    have hnil := hv.talliesIn_eq_nil hexact
    obtain ⟨_, rfl⟩ | ⟨_, ht, _⟩ | ⟨hne, _⟩ := (refinesTo_iff ha).1 hbg
    · exact ⟨b, hbuckets ▸ List.mem_flatten.2 ⟨_, hgm, List.mem_singleton_self b⟩, hexact,
        same_of_isExact hexact hv.contains⟩
    · cases hnil.symm.trans ht
    · exact absurd hnil hne

end Refine

/-! ## A further exact bucket is cut off -/

section Statistics

variable [DecidableEq α] (hD : D.Strict) (hM : Summarizes D M minimum rows tallies)
include hD hM

theorem not_counted_of_not_mem (hnot : v ∉ M) :
    ∀ t ∈ talliesIn D b tallies, D.same t.value v = false := fun t ht =>
  Bool.eq_false_iff.2 fun hsame =>
    hnot (hM.mem_iff.1 ⟨t, (mem_talliesIn.1 ht).1, hD.eq_of_same hsame⟩)

/-- **A bucket ends at a boundary**, and starts after one unless it starts at the minimum. -/
theorem exists_boundary_of_mem (hh : ofQuantiles D minimum rows = .ok h)
    (hfirst : ∀ q, rows.head? = some q → q.boundary ≠ minimum) (hb : b ∈ h.buckets) :
    (∃ q ∈ rows, q.boundary = b.upper) ∧
      (b.lower ∈ M ∨ ∃ q ∈ rows, D.next? q.boundary = some b.lower) := by
  obtain ⟨q, qs, rfl⟩ := List.exists_cons_of_ne_nil hM.rows_ne_nil
  obtain ⟨v, hv, hg⟩ := ofQuantiles_cons_eq_ok_iff.1 hh
  obtain ⟨⟨r, hr, hupper⟩, hlower⟩ := hg.exists_of_mem rfl b hb
  refine ⟨⟨r, hr, hupper.symm⟩, hlower.imp_left fun hlower => ?_⟩
  obtain ⟨_, rfl⟩ | ⟨hsame, _⟩ := firstLower_eq_ok_iff.1 hv
  · exact hlower ▸ hM.minimum_mem
  · exact absurd (hD.eq_of_same hsame) (hfirst q rfl)

/-- An exact bucket of the quantiles holds a value cut off, if it is no value of the collection. -/
theorem cutOff_of_isExact (hh : ofQuantiles D minimum rows = .ok h)
    (hfirst : ∀ q, rows.head? = some q → q.boundary ≠ minimum) (hb : b ∈ h.buckets)
    (hexact : b.isExact D = true) (hnot : b.lower ∉ M) : CutOff D M rows b.lower := by
  obtain ⟨⟨q, hq, hupper⟩, hlower⟩ := exists_boundary_of_mem hD hM hh hfirst hb
  refine ⟨hnot, .inr (hlower.resolve_left hnot), .inr ⟨q, hq, ?_⟩⟩
  exact hupper.trans (hD.eq_of_same hexact).symm

/-- …and so is a value that the frequent values leave alone. -/
theorem cutOff_of_alone (hh : ofQuantiles D minimum rows = .ok h)
    (hfirst : ∀ q, rows.head? = some q → q.boundary ≠ minimum) (hb : b ∈ h.buckets)
    (hv : Alone D b (talliesIn D b tallies) v) : CutOff D M rows v := by
  have hnot : v ∉ M := by
    intro hmem
    obtain ⟨t, ht, rfl⟩ := hM.mem_iff.2 hmem
    have hsame := hv.not_counted t (mem_talliesIn.2 ⟨ht, hv.contains⟩)
    cases hsame.symm.trans Domain.same_refl
  have hcounted : ∀ t ∈ talliesIn D b tallies, t.value ∈ M := fun t ht =>
    hM.mem_iff.1 ⟨t, (mem_talliesIn.1 ht).1, rfl⟩
  obtain ⟨⟨q, hq, hupper⟩, hlower⟩ := exists_boundary_of_mem hD hM hh hfirst hb
  refine ⟨hnot, ?_, ?_⟩
  · obtain hsame | ⟨t, ht, _, _, w, hw, hsame⟩ := hv.starts
    · obtain rfl := hD.eq_of_same hsame
      exact .inr (hlower.resolve_left hnot)
    · obtain rfl := hD.eq_of_same hsame
      exact .inl ⟨t.value, hcounted t ht, hw⟩
  · obtain hsame | ⟨t, ht, _, _, w, hw, hsame⟩ := hv.ends
    · exact .inr ⟨q, hq, hupper.trans (hD.eq_of_same hsame).symm⟩
    · obtain rfl := hD.eq_of_same hsame
      exact .inl ⟨t.value, hcounted t ht, hw⟩

variable (hspan : ∀ a c, 0 < D.span a c)
include hspan

/-- **The exact buckets enumerate the collection** where no value is cut off and the first bucket
starts at the minimum. -/
theorem exactPart_of_refine (hh : ofQuantiles D minimum rows = .ok h)
    (hs : (h.refine tallies).result = .ok s)
    (hfirst : ∀ q, rows.head? = some q → q.boundary ≠ minimum) (hcut : ∀ v, ¬ CutOff D M rows v) :
    s.exactPart.buckets = (sorted D tallies).map fun t => .single t.value t.count.toNat := by
  have hsorted : Ascending D (sorted D tallies) := ascending_sorted_iff.2 (hM.not_repeats hD)
  have hsingles : ((sorted D tallies).map fun t => Bucket.single t.value t.count.toNat).Pairwise
      fun a b => D.lt a.lower b.lower = true := List.pairwise_map.2 hsorted
  have hexacts : s.exactPart.buckets.Pairwise fun a b => D.lt a.lower b.lower = true :=
    s.exactPart.valid.ordered.imp_of_mem fun {a b} ha _ hab =>
      Domain.lt_of_le_of_lt (s.exactPart.valid.bounds a ha) hab
  refine eq_of_mem_iff_of_pairwise
    (fun _ _ hab => Domain.not_lt_of_le (Domain.le_of_lt hab)) hexacts hsingles fun p => ?_
  simp only [List.mem_map, mem_sorted]
  constructor
  · intro hp
    obtain ⟨hp, hexact⟩ := List.mem_filter.1 hp
    obtain ⟨t, ht, rfl⟩ | hcases := exact_cases_of_refine hspan hs hp hexact
    · exact ⟨t, ht, rfl⟩
    by_cases hmem : p.lower ∈ M
    · obtain ⟨t, ht, heq⟩ := hM.mem_iff.2 hmem
      refine ⟨t, ht, s.valid.eq_of_contains (single_mem_of_refine hspan hs ht) hp (v := p.lower)
        ?_ (contains_iff.2 ⟨Domain.le_refl, s.valid.bounds p hp⟩)⟩
      exact heq ▸ contains_single _ _
    · obtain hph | ⟨b, hb, hv⟩ := hcases
      · exact absurd (cutOff_of_isExact hD hM hh hfirst hph hexact hmem) (hcut _)
      · exact absurd (cutOff_of_alone hD hM hh hfirst hb hv) (hcut _)
  · rintro ⟨t, ht, rfl⟩
    exact single_mem_exactPart hspan hs ht

/-- …which is their number. -/
theorem length_exactPart_of_refine (hh : ofQuantiles D minimum rows = .ok h)
    (hs : (h.refine tallies).result = .ok s)
    (hfirst : ∀ q, rows.head? = some q → q.boundary ≠ minimum) (hcut : ∀ v, ¬ CutOff D M rows v) :
    s.exactPart.buckets.length = M.dedup.card := by
  rw [exactPart_of_refine hD hM hspan hh hs hfirst hcut, List.length_map,
    (sorted_perm tallies).length_eq, ← hM.values, Multiset.coe_card, List.length_map]

omit hD in
/-- Another exact bucket makes them more. -/
theorem card_lt_length_exactPart (hs : (h.refine tallies).result = .ok s)
    (hp : p ∈ s.exactPart.buckets) (hnot : p.lower ∉ M) :
    M.dedup.card < s.exactPart.buckets.length := by
  have hnodup : (p.lower ::ₘ M.dedup).Nodup :=
    Multiset.nodup_cons.2 ⟨fun hmem => hnot (Multiset.mem_dedup.1 hmem), M.nodup_dedup⟩
  have hsub : p.lower ::ₘ M.dedup ⊆ (s.exactPart.buckets.map Bucket.lower : Multiset α) := by
    refine Multiset.cons_subset.2 ⟨List.mem_map_of_mem hp, fun v hv => ?_⟩
    obtain ⟨t, ht, rfl⟩ := hM.mem_iff.2 (Multiset.mem_dedup.1 hv)
    exact List.mem_map.2 ⟨_, single_mem_exactPart hspan hs ht, rfl⟩
  have hle := Multiset.card_le_card ((Multiset.le_iff_subset hnodup).2 hsub)
  rwa [Multiset.card_cons, Multiset.coe_card, List.length_map] at hle

end Statistics

/-! ## A value cut off has an exact bucket -/

section Lattice

variable [DecidableEq α] (L : D.Lattice on) (hon : ∀ v, on v) (hD : D.Strict)
  (hM : Summarizes D M minimum rows tallies) (hh : ofQuantiles D minimum rows = .ok h)
include L hon hD hM hh

omit hD in
/-- A boundary inside a bucket is the end of it. -/
theorem upper_eq_of_contains (hb : b ∈ h.buckets) {q : Quantile α} (hq : q ∈ rows)
    (hbq : b.contains D q.boundary = true) : b.upper = q.boundary := by
  obtain ⟨r, rs, rfl⟩ := List.exists_cons_of_ne_nil hM.rows_ne_nil
  obtain ⟨_, _, hg⟩ := ofQuantiles_cons_eq_ok_iff.1 hh
  obtain ⟨c, hc, hupper⟩ := hg.exists_upper L hon rfl q hq
  have hcq : c.contains D q.boundary = true :=
    contains_iff.2 ⟨hupper ▸ h.valid.bounds c hc, hupper ▸ Domain.le_refl⟩
  rw [h.valid.eq_of_contains hb hc hbq hcq, hupper]

/-- A range can start after a value of the collection and after a boundary. -/
theorem startsRange_of_after (hb : b ∈ h.buckets) (hv : b.contains D v = true)
    (hafter : (∃ u ∈ M, D.next? u = some v) ∨ ∃ q ∈ rows, D.next? q.boundary = some v) :
    StartsRange D b (talliesIn D b tallies) v := by
  obtain ⟨hlow, hhigh⟩ := contains_iff.1 hv
  have hstart : ∀ u, D.next? u = some v → ¬ D.le b.lower u = true → D.same b.lower v = true := by
    intro u hnext hnot
    have hidx := L.index_of_next? hD (hon u) (hon v) hnext
    rw [L.le_iff (hon _) (hon _)] at hlow hnot
    rw [L.same_iff (hon _) (hon _)]
    omega
  obtain ⟨u, hu, hnext⟩ | ⟨q, hq, hnext⟩ := hafter
  · by_cases hbu : D.le b.lower u = true
    · have hlt := hD.lt_of_next? hnext
      obtain ⟨t, ht, rfl⟩ := hM.mem_iff.2 hu
      have hin : t ∈ talliesIn D b tallies := mem_talliesIn.2
        ⟨ht, contains_iff.2 ⟨hbu, Domain.le_trans (Domain.le_of_lt hlt) hhigh⟩⟩
      refine .inr ⟨t, hin, hlt, fun t' _ hlt' => ?_, v, hnext, Domain.same_refl⟩
      have hidx := L.index_of_next? hD (hon t.value) (hon v) hnext
      rw [L.lt_iff (hon _) (hon _)] at hlt'
      rw [L.le_iff (hon _) (hon _)]
      omega
    · exact .inl (hstart u hnext hbu)
  · refine .inl (hstart q.boundary hnext fun hbq => ?_)
    have hlt := Domain.lt_of_lt_of_le (hD.lt_of_next? hnext) hhigh
    have hupper := upper_eq_of_contains L hon hM hh hb hq
      (contains_iff.2 ⟨hbq, Domain.le_of_lt hlt⟩)
    exact Domain.not_le_of_lt hlt (hupper ▸ Domain.le_refl)

/-- …and end before one or at the other. -/
theorem endsRange_of_before (hb : b ∈ h.buckets) (hv : b.contains D v = true)
    (hbefore : (∃ u ∈ M, D.previous? u = some v) ∨ ∃ q ∈ rows, q.boundary = v) :
    EndsRange D b (talliesIn D b tallies) v := by
  obtain ⟨hlow, hhigh⟩ := contains_iff.1 hv
  obtain ⟨u, hu, hprev⟩ | ⟨q, hq, rfl⟩ := hbefore
  · have hidx := L.index_of_previous? hD (hon u) (hon v) hprev
    by_cases hub : D.le u b.upper = true
    · have hlt := hD.lt_of_previous? hprev
      obtain ⟨t, ht, rfl⟩ := hM.mem_iff.2 hu
      have hin : t ∈ talliesIn D b tallies := mem_talliesIn.2
        ⟨ht, contains_iff.2 ⟨Domain.le_trans hlow (Domain.le_of_lt hlt), hub⟩⟩
      refine .inr ⟨t, hin, hlt, fun t' _ hlt' => ?_, v, hprev, Domain.same_refl⟩
      rw [L.lt_iff (hon _) (hon _)] at hlt'
      rw [L.le_iff (hon _) (hon _)]
      omega
    · rw [L.le_iff (hon _) (hon _)] at hhigh hub
      refine .inl ((L.same_iff (hon _) (hon _)).2 ?_)
      omega
  · exact .inl (upper_eq_of_contains L hon hM hh hb hq hv ▸ Domain.same_refl)

/-- **A value cut off is left alone** in a bucket. -/
theorem CutOff.exists_alone (hv : CutOff D M rows v) :
    ∃ b ∈ h.buckets, Alone D b (talliesIn D b tallies) v := by
  obtain ⟨b, hb, hbv⟩ : Covers D h.buckets v := by
    refine covers_of_between L hon hD hM hh ?_ fun r hr => ?_
    · obtain ⟨u, hu, hnext⟩ | ⟨q, hq, hnext⟩ := hv.after
      · exact Domain.le_trans (hM.minimum_le u hu) (Domain.le_of_lt (hD.lt_of_next? hnext))
      · exact Domain.le_trans (hM.minimum_le_boundary hq) (Domain.le_of_lt (hD.lt_of_next? hnext))
    · obtain ⟨u, hu, hprev⟩ | ⟨q, hq, rfl⟩ := hv.before
      · exact Domain.le_trans (Domain.le_of_lt (hD.lt_of_previous? hprev)) (hM.le_last r hr u hu)
      · exact hM.boundary_le_last hr hq
  exact ⟨b, hb, hbv, not_counted_of_not_mem hD hM hv.not_mem,
    startsRange_of_after L hon hD hM hh hb hbv hv.after,
    endsRange_of_before L hon hD hM hh hb hbv hv.before⟩

/-- …and so is the value before a minimum that is the first boundary. -/
theorem exists_alone_of_first {q : Quantile α} (hq : rows.head? = some q)
    (hfirst : q.boundary = minimum) :
    ∃ b ∈ h.buckets, ∃ v, v ∉ M ∧ Alone D b (talliesIn D b tallies) v := by
  obtain ⟨qs, rfl⟩ := List.head?_eq_some_iff.1 hq
  obtain ⟨v, hv, hg⟩ := ofQuantiles_cons_eq_ok_iff.1 hh
  have hprev : D.previous? minimum = some v := by
    obtain ⟨hlt, _⟩ | ⟨_, hprev⟩ := firstLower_eq_ok_iff.1 hv
    · exact absurd (hfirst ▸ Domain.le_refl) (Domain.not_le_of_lt hlt)
    · exact hprev
  obtain ⟨b, rest, hbs, hlower⟩ := hg.exists_cons
  obtain rfl : b.lower = v := hlower
  have hb : b ∈ h.buckets := hbs ▸ List.mem_cons_self
  have hbv : b.contains D b.lower = true := contains_iff.2 ⟨Domain.le_refl, h.valid.bounds b hb⟩
  have hnot : b.lower ∉ M := fun hmem =>
    Domain.not_le_of_lt (hD.lt_of_previous? hprev) (hM.minimum_le _ hmem)
  exact ⟨b, hb, b.lower, hnot, hbv, not_counted_of_not_mem hD hM hnot, .inl Domain.same_refl,
    endsRange_of_before L hon hD hM hh hb hbv (.inl ⟨minimum, hM.minimum_mem, hprev⟩)⟩

/-- **The exact buckets are as many as the distinct values** exactly where the first boundary is not
the minimum and no value is cut off. -/
theorem length_exactPart_eq_iff (hspan : ∀ a c, 0 < D.span a c)
    (hs : (h.refine tallies).result = .ok s) :
    s.exactPart.buckets.length = M.dedup.card ↔
      (∀ q, rows.head? = some q → q.boundary ≠ minimum) ∧ ∀ v, ¬ CutOff D M rows v := by
  constructor
  · intro hlength
    have hnone : ∀ b ∈ h.buckets, ∀ v, v ∉ M → ¬ Alone D b (talliesIn D b tallies) v := by
      intro b hb v hnot hv
      obtain ⟨p, hp, hexact, hsame⟩ := exists_exact_of_alone hspan hs hb hv
      obtain rfl := hD.eq_of_same hsame
      have hlt := card_lt_length_exactPart hM hspan hs (List.mem_filter.2 ⟨hp, hexact⟩) hnot
      exact hlt.ne hlength.symm
    refine ⟨fun q hq hfirst => ?_, fun v hv => ?_⟩
    · obtain ⟨b, hb, v, hnot, hv⟩ := exists_alone_of_first L hon hD hM hh hq hfirst
      exact hnone b hb v hnot hv
    · obtain ⟨b, hb, hv'⟩ := hv.exists_alone L hon hD hM hh
      exact hnone b hb v hv.not_mem hv'
  · rintro ⟨hfirst, hcut⟩
    exact length_exactPart_of_refine hD hM hspan hh hs hfirst hcut

end Lattice

end CatalogStats.Histogram
