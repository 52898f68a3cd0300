import CatalogStats.Proofs.Domain.Lattice
import CatalogStats.Proofs.Histogram.Gathering
import CatalogStats.Proofs.Histogram.Outcome

/-!
# Proofs/Histogram/Quantiles — a histogram has the cumulative counts it was made of

Quantiles between whose boundaries nothing is left are a **bundle**.  The histogram of quantiles has
one bucket for each bundle: it ends where the last quantile of the bundle does, and the rows up to
there are those the quantile counts (`cumulated_of_ofQuantiles`).  On a lattice every quantile is a
bundle of its own.
-/

namespace CatalogStats.Histogram

variable {α : Type} {D : Domain α} {last : Bucket α} {bs : List (Bucket α)} {p q : Quantile α}
  {qs rows : List (Quantile α)} {n : ℕ} {h : Histogram D} {minimum : α}

/-! ## Bundles -/

/-- **The quantiles of one bucket each**: neighbours of which the first absorbs the second stay
together. -/
def bundles (D : Domain α) (rows : List (Quantile α)) : List (List (Quantile α)) :=
  rows.splitBy (absorbs D)

/-- Where each of some buckets ends, with the number of rows up to there, `n` of them before all. -/
def cumulatedFrom : ℕ → List (Bucket α) → List (α × ℕ)
  | _, [] => []
  | n, b :: bs => (b.upper, n + b.frequency) :: cumulatedFrom (n + b.frequency) bs

/-- Where each bucket of a histogram ends, with the number of rows up to there. -/
def cumulated (h : Histogram D) : List (α × ℕ) := cumulatedFrom 0 h.buckets

/-- An end with the rows up to it is the last quantile of a bundle. -/
def EndsBundle (stop : α × ℕ) (bundle : List (Quantile α)) : Prop :=
  ∃ q, bundle.getLast? = some q ∧ stop = (q.boundary, q.cumulative.toNat)

theorem length_cumulatedFrom (n : ℕ) (bs : List (Bucket α)) :
    (cumulatedFrom n bs).length = bs.length := by
  induction bs generalizing n with
  | nil => rfl
  | cons b bs ih => rw [cumulatedFrom, List.length_cons, ih, List.length_cons]

/-- **Every gathered bucket ends a bundle.** -/
theorem Gathered.endsBundle (h : Gathered D last p qs bs) (hway : UnderWay D n last p) :
    List.Forall₂ EndsBundle (cumulatedFrom n bs) (bundles D (p :: qs)) := by
  induction h generalizing n with
  | @close last p => exact .cons ⟨p, rfl, by rw [hway.upper, hway.count]⟩ .nil
  | @extend last p q qs bs v hrises hv hlt rest ih =>
    -- The quantile stands in front of its successor's bundle, and does not change where it ends.
    have hends := ih (hway.extended hrises)
    obtain ⟨bundle, others, hbundles⟩ := exists_splitBy_cons (absorbs D) q qs
    rw [bundles, hbundles] at hends
    rw [bundles, splitBy_cons_cons_of_pos ((absorbs_eq hv).trans hlt) hbundles]
    generalize cumulatedFrom n bs = stops at hends ⊢
    cases hends with
    | cons hstop hends =>
      obtain ⟨r, hr, hstop⟩ := hstop
      exact .cons ⟨r, by rw [List.getLast?_cons_cons, hr], hstop⟩ hends
  | @fresh last p q qs bs v hrises hv hle rest ih =>
    have hends := ih (hway.opened hrises hle)
    rw [bundles, splitBy_cons_cons_of_neg ((absorbs_eq hv).trans (Domain.not_lt.2 hle))]
    exact .cons ⟨p, rfl, by rw [hway.upper, hway.count]⟩ hends

/-- **On a lattice nothing is absorbed**: the value after a boundary is at most the next one. -/
theorem absorbs_eq_false {on : α → Prop} (L : D.Lattice on) (hp : on p.boundary)
    (hq : on q.boundary) (h : D.lt p.boundary q.boundary = true) : absorbs D p q = false := by
  rw [L.lt_iff hp hq] at h
  obtain ⟨c, hc, hon, hidx⟩ := L.exists_next? hp hq h
  rw [absorbs_eq hc, Domain.not_lt, L.le_iff hon hq]
  omega

/-! ## The histogram -/

theorem rises_of_ofQuantiles (h : ofQuantiles D minimum rows = .ok h) : rows.IsChain (Rises D) := by
  cases rows with
  | nil => exact .nil
  | cons q qs =>
    obtain ⟨_, _, hg⟩ := ofQuantiles_cons_eq_ok_iff.1 h
    exact hg.isChain_rises

/-- **The histogram of quantiles has their cumulative counts.**  Its buckets end the bundles of the
quantiles, each with the rows its last quantile counts; the first bucket starts at the minimum, or
before it if the first boundary is the minimum, and every other at the value after the one before. -/
theorem cumulated_of_ofQuantiles {k : Kind} (hk : ∀ scale, k ≠ .decimal scale) {minimum : k.Value}
    {rows : List (Quantile k.Value)} {h : Histogram k.domain} (hne : rows ≠ [])
    (hh : ofQuantiles k.domain minimum rows = .ok h) :
    List.Forall₂ EndsBundle h.cumulated (bundles k.domain rows) ∧
    (∀ p q, [p, q] <:+: rows → ((∃ bundle ∈ bundles k.domain rows, [p, q] <:+: bundle) ↔
      absorbs k.domain p q = true)) ∧
    (∃ q, rows.getLast? = some q ∧ h.max? = some q.boundary ∧ h.total = q.cumulative.toNat) ∧
    (∃ q lower, rows.head? = some q ∧ h.min? = some lower ∧
      (k.domain.lt minimum q.boundary = true ∧ lower = minimum ∨
        q.boundary = minimum ∧ k.domain.previous? minimum = some lower)) ∧
    h.buckets.IsChain (fun a b => k.domain.next? a.upper = some b.lower) ∧
    (k ≠ .string → rows.IsChain (fun p q => absorbs k.domain p q = false) ∧
      h.buckets.length = rows.length) := by
  have hD : k.domain.Strict := Kind.strict hk
  have hrises := rises_of_ofQuantiles hh
  obtain ⟨q, qs, rfl⟩ := List.exists_cons_of_ne_nil hne
  obtain ⟨lower, hlower, hg⟩ := ofQuantiles_cons_eq_ok_iff.1 hh
  have hway := underWay_firstBucket hD hlower
  have hends : List.Forall₂ EndsBundle h.cumulated (bundles k.domain (q :: qs)) :=
    hg.endsBundle hway
  refine ⟨hends, fun p q hin => exists_part_iff hin, ?_, ?_, hg.isChain hway, fun hstr => ?_⟩
  · obtain ⟨b, r, hb, hr, hupper, htotal⟩ := hg.exists_getLast? hway
    refine ⟨r, hr, ?_, by rw [total, ← htotal, Nat.zero_add]⟩
    rw [max?, hb, Option.map_some, hupper]
  · obtain ⟨b, rest, hb, hbl⟩ := hg.exists_cons
    have hmin : h.min? = some lower := by
      rw [min?, hb]
      exact congrArg some hbl
    refine ⟨q, lower, rfl, hmin, (firstLower_eq_ok_iff.1 hlower).imp_right ?_⟩
    rintro ⟨hsame, hprev⟩
    exact ⟨hD.eq_of_same hsame, hprev⟩
  · have hon := Kind.onGrid hk
    have hkeep : (q :: qs).IsChain fun p q => absorbs k.domain p q = false :=
      hrises.imp fun p q hpq => absorbs_eq_false (k.lattice hstr) (hon _) (hon _) hpq.lt
    refine ⟨hkeep, ?_⟩
    have hlength := hends.length_eq
    rwa [bundles, splitBy_eq_map_singleton hkeep, List.length_map, cumulated,
      length_cumulatedFrom] at hlength

/-- Two texts between which nothing is left share a bucket. -/
theorem cumulated_of_ofQuantiles_names : ∃ h : Histogram Kind.string.domain,
    ofQuantiles Kind.string.domain "a" [⟨"smith", 5⟩, ⟨"smithson", 8⟩, ⟨"z", 20⟩] = .ok h ∧
    h.buckets = [⟨"a", "smithson", 8⟩, ⟨"smithsoo", "z", 12⟩] ∧
    h.cumulated = [("smithson", 8), ("z", 20)] ∧ h.max? = some "z" ∧ h.total = 20 ∧
    h.buckets.IsChain (fun a b => Kind.string.domain.next? a.upper = some b.lower) := by
  have heval : ((ofQuantiles Kind.string.domain "a"
      [⟨"smith", 5⟩, ⟨"smithson", 8⟩, ⟨"z", 20⟩]).toOption.map buckets) =
      some [⟨"a", "smithson", 8⟩, ⟨"smithsoo", "z", 12⟩] := by
    decide +kernel
  obtain ⟨h, hh, hbuckets⟩ := exists_eq_ok heval
  obtain ⟨_, _, ⟨q, hq, hmax, htotal⟩, _, hchain, _⟩ :=
    cumulated_of_ofQuantiles (k := .string) nofun (List.cons_ne_nil _ _) hh
  obtain rfl := Option.some.inj hq
  exact ⟨h, hh, hbuckets, by rw [cumulated, hbuckets]; rfl, hmax, htotal, hchain⟩

end CatalogStats.Histogram
