import CatalogStats.Proofs.Domain.Steps
import CatalogStats.Proofs.Histogram.Outcome

/-!
# Proofs/Histogram/Permutation — the order of listing does not matter

Counted values take effect only after they are sorted and tested for repetitions (`distinct`).  If none
repeats there is one ascending list of them; if one does, it is the same value that is named, as long as
values that compare equal are equal (`distinct_eq_of_perm`).  So a histogram refined by them, and the one
that has only their counts, do not depend on the order in which they are listed (`refine_perm`).
-/

namespace CatalogStats.Histogram

variable {α : Type} {D : Domain α} {h s : Histogram D} {ts us : List (Tally α)}

/-! ## Distinct values -/

/-- Whether neighbours are the same is seen from the values alone. -/
theorem repeated?_congr (hvalues : ts.map Tally.value = us.map Tally.value) :
    repeated? D ts = repeated? D us := by
  induction ts generalizing us with
  | nil => rw [List.map_eq_nil_iff.1 hvalues.symm]
  | cons t ts ih =>
    obtain ⟨u, us, rfl, htu, hvalues⟩ := List.map_eq_cons_iff.1 hvalues.symm
    cases ts with
    | nil =>
      rw [List.map_eq_nil_iff.1 hvalues]
      rfl
    | cons t' ts =>
      have hrest := ih hvalues.symm
      obtain ⟨u', us, rfl, htu', -⟩ := List.map_eq_cons_iff.1 hvalues
      rw [repeated?, repeated?, htu, htu', hrest]

/-- **Sorted values** are one list, where values that compare equal are equal. -/
theorem map_value_sorted_eq_of_perm (hD : D.Strict) (hp : ts.Perm us) :
    (sorted D ts).map Tally.value = (sorted D us).map Tally.value := by
  have hperm : (sorted D ts).Perm (sorted D us) :=
    (sorted_perm ts).trans (hp.trans (sorted_perm us).symm)
  have hle (ts : List (Tally α)) :
      ((sorted D ts).map Tally.value).Pairwise fun v w => D.le v w = true :=
    List.pairwise_map.2 (pairwise_sorted ts)
  refine (hperm.map _).eq_of_pairwise (fun v w _ _ hvw hwv => ?_) (hle ts) (hle us)
  exact hD.eq_of_same (Domain.same_iff_le.2 ⟨hvw, hwv⟩)

/-- **Distinct values, or the value that repeats**, do not depend on the order of listing. -/
theorem distinct_eq_of_perm (hp : ts.Perm us) (h : D.Strict ∨ ¬ Repeats D ts) :
    distinct D ts = distinct D us := by
  by_cases hrep : Repeats D ts
  · have hD : D.Strict := h.resolve_right (not_not_intro hrep)
    obtain ⟨t, _, _, ht⟩ := distinct_of_repeats hrep
    rw [distinct] at ht ⊢
    rw [distinct, ← repeated?_congr (map_value_sorted_eq_of_perm hD hp)]
    cases hv : repeated? D (sorted D ts) with
    | some v => rfl
    | none =>
      rw [hv] at ht
      cases ht
  · have hrep' := (repeats_perm hp).not.1 hrep
    rw [distinct_eq_ok_iff.2 ⟨rfl, hrep⟩, distinct_eq_ok_iff.2 ⟨rfl, hrep'⟩, sorted_eq_of_perm hp hrep]

/-! ## Histograms -/

theorem refine_congr (hnil : ts = [] ↔ us = []) (hd : distinct D ts = distinct D us) :
    h.refine ts = h.refine us := by
  simp only [refine, List.isEmpty_iff, hnil, hd]

/-- **Values in any order refine a histogram alike**, and fail alike. -/
theorem refine_eq_of_perm (hp : ts.Perm us) (hts : D.Strict ∨ ¬ Repeats D ts) :
    h.refine us = h.refine ts :=
  refine_congr ⟨fun hus => (hus ▸ hp).eq_nil, fun hts => (hts ▸ hp).nil_eq.symm⟩
    (distinct_eq_of_perm hp hts).symm

theorem refine_eq_of_perm_of_ok (hspan : ∀ a c, 0 < D.span a c) (hp : ts.Perm us)
    (hs : (h.refine ts).result = .ok s) : h.refine us = h.refine ts :=
  refine_eq_of_perm hp (.inr ((refine_eq_ok_iff hspan).1 hs).1)

theorem ofTallies_eq_of_perm (hp : ts.Perm us) (hts : D.Strict ∨ ¬ Repeats D ts) :
    ofTallies D us = ofTallies D ts := by
  rw [ofTallies, ofTallies, distinct_eq_of_perm hp hts]

/-- **The order of listing does not matter** where a histogram is refined, or made of counts alone: if
that succeeds, and for every kind but the decimals also if it fails, the same happens in any other order,
with the same notes.  Of two decimals that are the same, written differently, the one listed first is
named. -/
theorem refine_perm {k : Kind} {tallies others : List (Tally k.Value)} (hp : tallies.Perm others) :
    (∀ h s : Histogram k.domain, (h.refine tallies).result = .ok s →
      h.refine others = h.refine tallies) ∧
    (∀ e : Histogram k.domain, ofTallies k.domain tallies = .ok e →
      ofTallies k.domain others = .ok e) ∧
    ((∀ scale, k ≠ .decimal scale) ∨ ¬ Repeats k.domain tallies →
      (∀ h : Histogram k.domain, h.refine others = h.refine tallies) ∧
      ofTallies k.domain others = ofTallies k.domain tallies) := by
  refine ⟨fun h s hs => refine_eq_of_perm_of_ok k.span_pos hp hs, fun e he => ?_, fun hk => ?_⟩
  · exact he ▸ ofTallies_eq_of_perm hp (.inr (ofTallies_eq_ok_iff.1 he).1)
  · have hts := hk.imp_left Kind.strict
    exact ⟨fun h => refine_eq_of_perm hp hts, ofTallies_eq_of_perm hp hts⟩

/-- Two letters in either order, and a letter that is listed twice with two counts. -/
theorem refine_perm_letters : ∃ h s : Histogram Kind.character.domain,
    h.buckets = [⟨'d', 'j', 100⟩] ∧
    [⟨'d', 10⟩, ⟨'j', 5⟩].Perm [(⟨'j', 5⟩ : Tally Char), ⟨'d', 10⟩] ∧
    (h.refine [⟨'d', 10⟩, ⟨'j', 5⟩]).result = .ok s ∧
    s.buckets = [⟨'d', 'd', 10⟩, ⟨'e', 'i', 85⟩, ⟨'j', 'j', 5⟩] ∧
    (h.refine [⟨'j', 5⟩, ⟨'d', 10⟩]).result = .ok s ∧
    h.refine [⟨'d', 10⟩, ⟨'d', 5⟩] = ⟨[], .error (.repeated 'd')⟩ ∧
    h.refine [⟨'d', 5⟩, ⟨'d', 10⟩] = ⟨[], .error (.repeated 'd')⟩ := by
  let h : Histogram Kind.character.domain := ⟨[⟨'d', 'j', 100⟩], by decide, by decide, by decide⟩
  have hsorted : sorted Kind.character.domain [⟨'d', 10⟩, ⟨'j', 5⟩] = [⟨'d', 10⟩, ⟨'j', 5⟩] :=
    sorted_eq_self (by decide)
  have heval : ((h.refine [⟨'d', 10⟩, ⟨'j', 5⟩]).result.toOption.map buckets) =
      some [⟨'d', 'd', 10⟩, ⟨'e', 'i', 85⟩, ⟨'j', 'j', 5⟩] := by
    simp only [refine, distinct, hsorted]
    decide +kernel
  obtain ⟨s, hs, hbuckets⟩ := exists_eq_ok heval
  have hrepeated : h.refine [⟨'d', 10⟩, ⟨'d', 5⟩] = ⟨[], .error (.repeated 'd')⟩ :=
    refine_of_distinct_eq_error (List.cons_ne_nil _ _) (by
      rw [distinct, sorted_eq_self (by decide)]
      rfl)
  have hp := List.Perm.swap (⟨'j', 5⟩ : Tally Char) ⟨'d', 10⟩ []
  have hp' := List.Perm.swap (⟨'d', 5⟩ : Tally Char) ⟨'d', 10⟩ []
  refine ⟨h, s, rfl, hp, hs, hbuckets, ?_, hrepeated, ?_⟩
  · rw [(refine_perm (k := .character) hp).1 h s hs, hs]
  · rw [((refine_perm (k := .character) hp').2.2 (.inl (by simp))).1 h, hrepeated]

end CatalogStats.Histogram
