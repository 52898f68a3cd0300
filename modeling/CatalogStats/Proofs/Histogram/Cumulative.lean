import CatalogStats.Proofs.Histogram.Statistics

/-!
# Proofs/Histogram/Cumulative — a histogram is made again of its cumulative counts

The ends of the buckets, each with the number of rows up to there, are quantiles (`quantiles`).  If the
first bucket is not exact and every later one starts at the value after the end of the one before, they
have the histogram they were taken from (`exists_ofQuantiles_quantiles`).  Quantiles of whole numbers,
dates or characters have a histogram exactly when they rise from a minimum that leaves the first bucket
a start (`exists_ofQuantiles_iff`).
-/

namespace CatalogStats.Histogram

variable {α : Type} {D : Domain α} {on : α → Prop} {b c : Bucket α} {bs cs : List (Bucket α)}
  {q : Quantile α} {qs : List (Quantile α)} {n : ℕ} {minimum : α}

/-! ## The quantiles of a histogram -/

/-- The end of a bucket as a quantile, with `n` rows before the bucket. -/
def quantileAt (n : ℕ) (b : Bucket α) : Quantile α := ⟨b.upper, .ofNat (n + b.frequency)⟩

/-- The ends of some buckets as quantiles, with `n` rows before all. -/
def quantilesFrom : ℕ → List (Bucket α) → List (Quantile α)
  | _, [] => []
  | n, b :: bs => quantileAt n b :: quantilesFrom (n + b.frequency) bs

/-- **The quantiles of a histogram**: where each bucket ends, with the number of rows up to there. -/
def quantiles (h : Histogram D) : List (Quantile α) := quantilesFrom 0 h.buckets

theorem toNat_quantileAt (h : n + b.frequency < 18446744073709551616) :
    (quantileAt n b).cumulative.toNat = n + b.frequency := UInt64.toNat_ofNat_of_lt' h

/-- The quantiles count the rows exactly. -/
theorem map_quantilesFrom (h : n + Bucket.total bs < 18446744073709551616) :
    (quantilesFrom n bs).map (fun q => (q.boundary, q.cumulative.toNat)) = cumulatedFrom n bs := by
  induction bs generalizing n with
  | nil => rfl
  | cons b bs ih =>
    rw [Bucket.total, ← Nat.add_assoc] at h
    rw [quantilesFrom, List.map_cons, toNat_quantileAt (Nat.lt_of_add_right_lt h), ih h, cumulatedFrom]
    rfl

/-! ## The histogram of the quantiles -/

/-- Two buckets that differ at most in how their first value is written. -/
structure Alike (D : Domain α) (b c : Bucket α) : Prop where
  lower : D.same b.lower c.lower = true
  upper : b.upper = c.upper
  frequency : b.frequency = c.frequency

theorem Alike.eq (h : Alike D b c) (hlower : b.lower = c.lower) : b = c := by
  obtain ⟨lower, upper, frequency⟩ := b
  obtain ⟨_, rfl, rfl⟩ := h
  exact congrArg (Bucket.mk · c.upper c.frequency) hlower

theorem total_eq_of_alike (h : List.Forall₂ (Alike D) bs cs) :
    Bucket.total bs = Bucket.total cs := by
  induction h with
  | nil => rfl
  | cons hbc _ ih => rw [Bucket.total, Bucket.total, hbc.frequency, ih]

/-- Buckets that are alike are valid together. -/
theorem Valid.of_alike (hbs : Valid D bs) (h : List.Forall₂ (Alike D) bs cs) : Valid D cs where
  bounds c hc := by
    obtain ⟨b, hb, hbc⟩ := exists_left_of_forall₂ h hc
    have hle := Domain.le_trans (Domain.same_iff_le.1 hbc.lower).2 (hbs.bounds b hb)
    exact hbc.upper ▸ hle
  ordered := by
    have hordered := hbs.ordered
    clear hbs
    induction h with
    | nil => exact .nil
    | cons hbc hrest ih =>
      obtain ⟨hfirst, hothers⟩ := List.pairwise_cons.1 hordered
      refine List.pairwise_cons.2 ⟨fun c' hc' => ?_, ih hothers⟩
      obtain ⟨b', hb', hbc'⟩ := exists_left_of_forall₂ hrest hc'
      have hlt := Domain.lt_of_lt_of_le (hfirst b' hb') (Domain.same_iff_le.1 hbc'.lower).1
      exact hbc.upper ▸ hlt
  total_lt := total_eq_of_alike h ▸ hbs.total_lt

theorem same_of_alike {h s : Histogram D} (hbs : List.Forall₂ (Alike D) h.buckets s.buckets) :
    h.same s = true := by
  obtain ⟨hlength, hall⟩ := List.forall₂_iff_zip.1 hbs
  rw [same, hlength, beq_self_eq_true, Bool.true_and, List.all_eq_true]
  rintro ⟨b, c⟩ hbc
  have halike := hall hbc
  simp only [Bucket.same, halike.lower, halike.upper, halike.frequency, Domain.same_refl,
    beq_self_eq_true, Bool.and_self]

/-- **The quantiles of two neighbours rise** by the frequency of the second. -/
theorem rises_quantileAt (hlt : D.lt b.upper c.upper = true)
    (h : n + b.frequency + c.frequency < 18446744073709551616) :
    Rises D (quantileAt n b) (quantileAt (n + b.frequency) c) ∧
      rowsBetween (quantileAt n b) (quantileAt (n + b.frequency) c) = c.frequency := by
  have hb := toNat_quantileAt (Nat.lt_of_add_right_lt h)
  have hc := toNat_quantileAt h
  refine ⟨⟨hlt, ?_⟩, ?_⟩
  · rw [hb, hc]
    exact Nat.le_add_right _ _
  · rw [rowsBetween, hb, hc, Nat.add_sub_cancel_left]

/-- **The walk along the quantiles of adjacent buckets opens a bucket at each**, alike the one whose
end it is. -/
theorem exists_gathered_quantilesFrom (hvalid : Valid D (b :: bs))
    (hsum : n + Bucket.total (b :: bs) < 18446744073709551616) (hgap : Gapless D (b :: bs))
    (last : Bucket α) : ∃ cs,
      Gathered D last (quantileAt n b) (quantilesFrom (n + b.frequency) bs) (last :: cs) ∧
        List.Forall₂ (Alike D) bs cs ∧
          ((b :: bs).IsChain (fun a c => D.next? a.upper = some c.lower) → bs = cs) := by
  induction bs generalizing b n last with
  | nil => exact ⟨[], .close, .nil, fun _ => rfl⟩
  | cons c bs ih =>
    obtain ⟨⟨v, hv, hsame⟩, hgap⟩ := List.isChain_cons_cons.1 hgap
    obtain ⟨hfirst, -⟩ := List.pairwise_cons.1 hvalid.ordered
    have hc := hvalid.bounds c (List.mem_cons_of_mem _ List.mem_cons_self)
    have hrest : n + b.frequency + Bucket.total (c :: bs) < 18446744073709551616 := by
      rwa [Nat.add_assoc]
    obtain ⟨hrises, hrows⟩ := rises_quantileAt (n := n) (b := b) (c := c)
      (Domain.lt_of_lt_of_le (hfirst c List.mem_cons_self) hc)
      (Nat.lt_of_add_right_lt (by rwa [Nat.add_assoc _ c.frequency]))
    have halike : Alike D c (opened v (quantileAt n b) (quantileAt (n + b.frequency) c)) :=
      ⟨Domain.same_symm hsame, rfl, hrows.symm⟩
    obtain ⟨cs, hg, hcs, heq⟩ := ih (hvalid.sublist (List.sublist_cons_self b _)) hrest hgap _
    refine ⟨_, .fresh hrises hv (Domain.le_trans (Domain.same_iff_le.1 hsame).1 hc) hg,
      .cons halike hcs, fun hchain => ?_⟩
    obtain ⟨hnext, hchain⟩ := List.isChain_cons_cons.1 hchain
    exact congrArg₂ _ (halike.eq (Option.some.inj (hnext.symm.trans hv))) (heq hchain)

/-- **Adjacent buckets are made again of their quantiles**, if the first is not exact. -/
theorem exists_ofQuantiles_quantiles {h : Histogram D} (hmin : h.min? = some minimum)
    (hfirst : ∀ b, h.buckets.head? = some b → b.isExact D = false) (hgap : Gapless D h.buckets) :
    ∃ s, ofQuantiles D minimum h.quantiles = .ok s ∧ h.same s = true ∧
      (h.buckets.IsChain (fun a b => D.next? a.upper = some b.lower) → s = h) := by
  obtain ⟨buckets, hvalid⟩ := h
  cases buckets with
  | nil => cases hmin
  | cons b bs =>
    obtain rfl := Option.some.inj hmin
    have hsum := hvalid.total_lt
    have hlt : D.lt b.lower b.upper = true :=
      Domain.lt_iff_le_not_same.2 ⟨hvalid.bounds b List.mem_cons_self, hfirst b rfl⟩
    have hstart : firstBucket b.lower (quantileAt 0 b) = b := by
      rw [Bucket.total] at hsum
      rw [firstBucket, toNat_quantileAt (by omega), Nat.zero_add]
      rfl
    obtain ⟨cs, hg, hcs, heq⟩ := exists_gathered_quantilesFrom (n := 0) hvalid (by omega) hgap b
    have halike : List.Forall₂ (Alike D) (b :: bs) (b :: cs) :=
      .cons ⟨Domain.same_refl, rfl, rfl⟩ hcs
    refine ⟨⟨b :: cs, hvalid.of_alike halike⟩, ?_, same_of_alike halike, fun hchain => ?_⟩
    · exact ofQuantiles_cons_eq_ok_iff.2
        ⟨b.lower, firstLower_eq_ok_iff.2 (.inl ⟨hlt, rfl⟩), hstart.symm ▸ hg⟩
    · exact eq_of_buckets_eq (congrArg (b :: ·) (heq hchain).symm)

/-! ## Which quantiles have a histogram -/

/-- **On a lattice quantiles have a histogram** exactly when they rise, from a first boundary that is
not below the minimum and not the least value of all as the minimum. -/
theorem exists_ofQuantiles_iff (hD : D.Strict) (L : D.Lattice on) (hon : ∀ v, on v) :
    (∃ h, ofQuantiles D minimum (q :: qs) = .ok h) ↔ (q :: qs).IsChain (Rises D) ∧
      D.le minimum q.boundary = true ∧ ¬ (q.boundary = minimum ∧ ∀ v, D.le minimum v = true) := by
  have hstart : (∃ v, firstLower D minimum q.boundary = .ok v) ↔ D.le minimum q.boundary = true ∧
      ¬ (q.boundary = minimum ∧ ∀ v, D.le minimum v = true) := by
    rw [exists_firstLower_iff, L.isSome_previous?_iff hD hon, not_and]
    refine and_congr_right fun _ => imp_congr_left ⟨hD.eq_of_same, ?_⟩
    rintro rfl
    exact Domain.same_refl
  rw [← hstart]
  constructor
  · rintro ⟨h, hh⟩
    obtain ⟨v, hv, _⟩ := ofQuantiles_cons_eq_ok_iff.1 hh
    exact ⟨rises_of_ofQuantiles hh, v, hv⟩
  · rintro ⟨hrises, v, hv⟩
    obtain ⟨bs, hg⟩ := exists_gathered L hon (firstBucket v q) hrises
    exact ⟨⟨bs, hg.valid hD (underWay_firstBucket hD hv)⟩, ofQuantiles_cons_eq_ok_iff.2 ⟨v, hv, hg⟩⟩

/-- **Quantiles and histograms.**  The quantiles of a histogram of adjacent buckets, the first not exact,
have that histogram, up to the digits a decimal lower bound is written with.  Quantiles of whole numbers,
dates or characters have a histogram exactly when their boundaries increase from the minimum on and their
counts do not decrease, unless the first boundary is the minimum and the least value of all. -/
theorem ofQuantiles_quantiles (k : Kind) :
    (∀ h : Histogram k.domain,
      h.quantiles.map (fun q => (q.boundary, q.cumulative.toNat)) = h.cumulated) ∧
    (∀ (h : Histogram k.domain) minimum, h.min? = some minimum →
      (∀ b, h.buckets.head? = some b → b.isExact k.domain = false) →
      Gapless k.domain h.buckets →
        ∃ s, ofQuantiles k.domain minimum h.quantiles = .ok s ∧ h.same s = true ∧
          ((∀ scale, k ≠ .decimal scale) ∨
            h.buckets.IsChain (fun a b => k.domain.next? a.upper = some b.lower) → s = h)) ∧
    ((∀ scale, k ≠ .decimal scale) → k ≠ .string → ∀ minimum q qs,
      ((∃ h, ofQuantiles k.domain minimum (q :: qs) = .ok h) ↔ (q :: qs).IsChain (Rises k.domain) ∧
        k.domain.le minimum q.boundary = true ∧
        ¬ (q.boundary = minimum ∧ ∀ v, k.domain.le minimum v = true))) := by
  refine ⟨fun h => ?_, fun h minimum hmin hfirst hgap => ?_, fun hdec hstr minimum q qs => ?_⟩
  · refine map_quantilesFrom ?_
    rw [Nat.zero_add]
    exact h.valid.total_lt
  · obtain ⟨s, hs, hsame, heq⟩ := exists_ofQuantiles_quantiles hmin hfirst hgap
    refine ⟨s, hs, hsame, fun hcases => heq (hcases.elim (fun hdec => ?_) id)⟩
    exact hgap.imp fun a b ⟨v, hv, hvb⟩ => (Kind.strict hdec).eq_of_same hvb ▸ hv
  · exact exists_ofQuantiles_iff (Kind.strict hdec) (k.lattice hstr) (Kind.onGrid hdec)

/-- Adjacent decimal buckets of which the second starts at a value that is written with a digit more,
and two letters that rise from a minimum. -/
theorem ofQuantiles_quantiles_tenths : ∃ h s : Histogram (Kind.decimal 1).domain,
    let tenths (n : Fin 10) : Decimal := ⟨false, n, 1, by omega, by decide⟩
    h.buckets = [⟨tenths 3, tenths 5, 7⟩, ⟨⟨false, 60, 2, by decide, by decide⟩, tenths 9, 4⟩] ∧
    h.quantiles = [⟨tenths 5, 7⟩, ⟨tenths 9, 11⟩] ∧
    ofQuantiles (Kind.decimal 1).domain (tenths 3) h.quantiles = .ok s ∧ h.same s = true ∧
    s.buckets = [⟨tenths 3, tenths 5, 7⟩, ⟨tenths 6, tenths 9, 4⟩] ∧
    ∃ t, ofQuantiles Kind.character.domain 'd' [⟨'j', 100⟩, ⟨'m', 105⟩] = .ok t := by
  let tenths (n : Fin 10) : Decimal := ⟨false, n, 1, by omega, by decide⟩
  let h : Histogram (Kind.decimal 1).domain :=
    ⟨[⟨tenths 3, tenths 5, 7⟩, ⟨⟨false, 60, 2, by decide, by decide⟩, tenths 9, 4⟩],
      by decide, by decide, by decide⟩
  have hgap : Gapless (Kind.decimal 1).domain h.buckets :=
    .cons_cons ⟨tenths 6, by decide +kernel, by decide⟩ (.singleton _)
  have hfirst : ∀ b, h.buckets.head? = some b → b.isExact (Kind.decimal 1).domain = false := by
    rintro b ⟨⟩
    decide
  obtain ⟨s, hs, hsame, -⟩ := (ofQuantiles_quantiles (.decimal 1)).2.1 h (tenths 3) rfl hfirst hgap
  have heval : ((ofQuantiles (Kind.decimal 1).domain (tenths 3) h.quantiles).toOption.map buckets) =
      some [⟨tenths 3, tenths 5, 7⟩, ⟨tenths 6, tenths 9, 4⟩] := by
    decide +kernel
  rw [hs] at heval
  refine ⟨h, s, rfl, rfl, hs, hsame, Option.some.inj heval, ?_⟩
  refine ((ofQuantiles_quantiles .character).2.2 (by simp) (by simp) 'd' ⟨'j', 100⟩
    [⟨'m', 105⟩]).2 ⟨?_, ?_⟩
  · exact .cons_cons ⟨by decide, by decide⟩ (.singleton _)
  · exact ⟨by decide, fun hleast => absurd hleast.1 (by decide)⟩

end CatalogStats.Histogram
