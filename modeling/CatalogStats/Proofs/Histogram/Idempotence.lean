import CatalogStats.Proofs.Histogram.Replacement

/-!
# Proofs/Histogram/Idempotence — refining twice is refining once

A counted value that has an exact bucket with its count changes nothing: it lies in no other bucket, and
its own becomes what it is.  So the histograms that counted values leave alone are those that have their
exact buckets (`refine_eq_self_iff`), among them whatever they refine a histogram to, and the histogram
that has only their counts (`refine_idempotent`).
-/

namespace CatalogStats.Histogram

variable {α : Type} {D : Domain α} {s e : Histogram D} {b : Bucket α} {tallies : List (Tally α)}

/-! ## Exact buckets -/

/-- **A bucket is left alone** by counted values that have exact buckets beside it, or are its own. -/
theorem refineBucket_eq_self (hb : b ∈ s.buckets)
    (hmem : ∀ t ∈ tallies, .single t.value t.count.toNat ∈ s.buckets) :
    refineBucket D b (talliesIn D b tallies) = ⟨[], .ok [b]⟩ := by
  cases hts : talliesIn D b tallies with
  | nil => rfl
  | cons t ts =>
    obtain ⟨ht, hbt⟩ := mem_talliesIn.1 (hts ▸ List.mem_cons_self : t ∈ talliesIn D b tallies)
    obtain rfl := s.valid.eq_of_contains hb (hmem t ht) hbt (contains_single _ _)
    have hexact : (Bucket.single t.value t.count.toNat).isExact D = true := Domain.same_refl
    rw [refineBucket, if_pos hexact, Bucket.single, if_neg (Nat.lt_irrefl _), if_pos rfl]

/-! ## Histograms that are left alone -/

/-- **Counted values leave a histogram alone**, without a note, exactly when each has its exact bucket
in it and none is listed twice. -/
theorem refine_eq_self_iff (hspan : ∀ a c, 0 < D.span a c) : s.refine tallies = ⟨[], .ok s⟩ ↔
    ¬ Repeats D tallies ∧ ∀ t ∈ tallies, .single t.value t.count.toNat ∈ s.buckets := by
  constructor
  · intro hself
    have hs : (s.refine tallies).result = .ok s := by rw [hself]
    exact ⟨((refine_eq_ok_iff hspan).1 hs).1, fun t ht => single_mem_of_refine hspan hs ht⟩
  · rintro ⟨hrep, hmem⟩
    have hbuckets : ∀ b ∈ s.buckets,
        refineBucket D b (talliesIn D b (sorted D tallies)) = ⟨[], .ok [b]⟩ :=
      fun b hb => refineBucket_eq_self hb (forall_mem_sorted.2 hmem)
    have hgroups : List.Forall₂ (RefinesTo D (sorted D tallies)) s.buckets
        (s.buckets.map fun b => [b]) :=
      List.forall₂_map_right_iff.2 (List.forall₂_same.2 fun b hb => by rw [RefinesTo, hbuckets b hb])
    have hcov : ∀ t ∈ tallies, Covers D s.buckets t.value := fun t ht =>
      ⟨_, hmem t ht, contains_single _ _⟩
    have hs : (s.refine tallies).result = .ok s := by
      refine (refine_eq_ok_iff hspan).2 ⟨hrep, hcov, _, hgroups, ?_⟩
      rw [← List.flatMap_def, List.flatMap_singleton']
    have hnotes : (s.refine tallies).notes = [] := by
      rw [notes_refine hspan hs, List.flatMap_eq_nil_iff]
      exact fun b hb => by rw [notesAt, hbuckets b hb]
    exact congrArg₂ Noted.mk hnotes hs

/-- **Refining is idempotent.**  What counted values refine a histogram to is left alone by them, and so
is the histogram that has only their counts; no note is taken. -/
theorem refine_idempotent (k : Kind) (tallies : List (Tally k.Value)) :
    (∀ h s : Histogram k.domain, (h.refine tallies).result = .ok s →
      s.refine tallies = ⟨[], .ok s⟩) ∧
    ∀ e : Histogram k.domain, ofTallies k.domain tallies = .ok e →
      e.refine tallies = ⟨[], .ok e⟩ := by
  constructor
  · intro h s hs
    have hrep := ((refine_eq_ok_iff k.span_pos).1 hs).1
    exact (refine_eq_self_iff k.span_pos).2 ⟨hrep, fun t ht => single_mem_of_refine k.span_pos hs ht⟩
  · intro e he
    obtain ⟨hrep, hbuckets⟩ := ofTallies_eq_ok_iff.1 he
    refine (refine_eq_self_iff k.span_pos).2 ⟨hrep, fun t ht => ?_⟩
    exact hbuckets ▸ List.mem_map_of_mem (mem_sorted.2 ht)

/-- A bucket cut at its start, and the counts alone. -/
theorem refine_idempotent_letters : ∃ h s e : Histogram Kind.character.domain,
    h.buckets = [⟨'d', 'j', 100⟩] ∧ (h.refine [⟨'d', 10⟩]).result = .ok s ∧
    s.buckets = [⟨'d', 'd', 10⟩, ⟨'e', 'j', 90⟩] ∧ s.refine [⟨'d', 10⟩] = ⟨[], .ok s⟩ ∧
    ofTallies Kind.character.domain [⟨'d', 10⟩] = .ok e ∧ e.buckets = [⟨'d', 'd', 10⟩] ∧
    e.refine [⟨'d', 10⟩] = ⟨[], .ok e⟩ := by
  let h : Histogram Kind.character.domain := ⟨[⟨'d', 'j', 100⟩], by decide, by decide, by decide⟩
  have hs : ((h.refine [⟨'d', 10⟩]).result.toOption.map buckets) =
      some [⟨'d', 'd', 10⟩, ⟨'e', 'j', 90⟩] := by
    decide +kernel
  have he : ((ofTallies Kind.character.domain [⟨'d', 10⟩]).toOption.map buckets) =
      some [⟨'d', 'd', 10⟩] := by
    decide +kernel
  obtain ⟨s, hs, hbuckets⟩ := exists_eq_ok hs
  obtain ⟨e, he, hbuckets'⟩ := exists_eq_ok he
  obtain ⟨hself, hself'⟩ := refine_idempotent .character [⟨'d', 10⟩]
  exact ⟨h, s, e, rfl, hs, hbuckets, hself h s hs, he, hbuckets', hself' e he⟩

end CatalogStats.Histogram
