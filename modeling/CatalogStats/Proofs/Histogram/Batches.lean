import CatalogStats.Proofs.Histogram.Permutation
import CatalogStats.Proofs.Histogram.Success

/-!
# Proofs/Histogram/Batches — refining by one batch after another

Two batches of counted values are **apart** in a histogram when no bucket contains values of both.
Then the first batch leaves every bucket alone that the second one divides, and the buckets it makes
stand inside those of its own; so refining by one batch after the other is refining by both at once,
in either order (`refine_append_iff`).
-/

namespace CatalogStats.Histogram

variable {α : Type} {D : Domain α} {h s : Histogram D} {b : Bucket α} {bs g mid : List (Bucket α)}
  {first second ts us tallies : List (Tally α)} {v : α}

/-- No bucket contains values of both batches. -/
def Apart (D : Domain α) (bs : List (Bucket α)) (first second : List (Tally α)) : Prop :=
  ∀ b ∈ bs, ∀ t ∈ first, ∀ u ∈ second,
    b.contains D t.value = true → ¬ b.contains D u.value = true

theorem Apart.symm (h : Apart D bs first second) : Apart D bs second first :=
  fun b hb u hu t ht hbu hbt => h b hb t ht u hu hbt hbu

/-- A bucket with a value of one batch has none of the other. -/
theorem Apart.talliesIn_eq_nil (h : Apart D bs first second) (hb : b ∈ bs)
    (hne : talliesIn D b second ≠ []) : talliesIn D b first = [] := by
  obtain ⟨u, hu⟩ := List.exists_mem_of_ne_nil _ hne
  obtain ⟨hu, hbu⟩ := mem_talliesIn.1 hu
  exact List.filter_eq_nil_iff.2 fun t ht hbt => h b hb t ht u hu hbt hbu

/-! ## Ascending lists -/

/-- The values inside a bucket do not depend on the order in which distinct values are listed. -/
theorem talliesIn_sorted_eq (hts : ¬ Repeats D ts) (hus : ¬ Repeats D us)
    (hp : (talliesIn D b ts).Perm (talliesIn D b us)) :
    talliesIn D b (sorted D ts) = talliesIn D b (sorted D us) := by
  have ha : Ascending D (sorted D ts) := ascending_sorted_iff.2 hts
  have ha' : Ascending D (sorted D us) := ascending_sorted_iff.2 hus
  have hts' : (talliesIn D b (sorted D ts)).Perm (talliesIn D b ts) :=
    talliesIn_perm (sorted_perm ts)
  have hus' : (talliesIn D b (sorted D us)).Perm (talliesIn D b us) :=
    talliesIn_perm (sorted_perm us)
  exact ha.talliesIn.eq_of_perm ha'.talliesIn (hts'.trans (hp.trans hus'.symm))

theorem talliesIn_sorted_eq_nil (h : talliesIn D b ts = []) : talliesIn D b (sorted D ts) = [] :=
  (h ▸ talliesIn_perm (sorted_perm ts)).eq_nil

/-- Values of two batches repeat in a batch, or from one batch to the other. -/
theorem repeats_append_iff : ¬ Repeats D (first ++ second) ↔ ¬ Repeats D first ∧
    ¬ Repeats D second ∧ ∀ t ∈ first, ∀ u ∈ second, D.same t.value u.value = false := by
  simp only [Repeats, not_not, List.pairwise_append]

/-! ## One bucket -/

theorem refinesTo_congr (h : talliesIn D b ts = talliesIn D b us) :
    RefinesTo D ts b g ↔ RefinesTo D us b g := by
  rw [RefinesTo, h, RefinesTo]

/-- **A bucket without counted values stays.** -/
theorem refinesTo_iff_of_untouched (h : talliesIn D b ts = []) :
    RefinesTo D ts b g ↔ g = [b] := by
  rw [RefinesTo, h]
  exact ⟨fun hg => (Except.ok.inj hg).symm, fun hg => hg ▸ rfl⟩

/-- …and so do any number of them. -/
theorem expands_iff_of_untouched (h : ∀ p ∈ mid, talliesIn D p ts = []) :
    Expands (RefinesTo D ts) mid g ↔ g = mid := by
  induction mid generalizing g with
  | nil => exact expands_nil_iff
  | cons p mid ih =>
    obtain ⟨hp, hmid⟩ := List.forall_mem_cons.1 h
    simp only [expands_cons_iff, refinesTo_iff_of_untouched hp, ih hmid]
    constructor
    · rintro ⟨_, _, rfl, rfl, rfl⟩
      rfl
    · exact fun hg => ⟨[p], mid, rfl, rfl, hg⟩

/-- Buckets inside one without counted values have none either. -/
theorem Inside.talliesIn_eq_nil (hin : Inside D b g) (h : talliesIn D b ts = []) :
    ∀ p ∈ g, talliesIn D p ts = [] := by
  intro p hp
  rw [talliesIn, List.filter_eq_nil_iff] at h ⊢
  intro t ht hpt
  obtain ⟨hlow, hhigh⟩ := contains_iff.1 hpt
  exact h t ht (contains_iff.2 ⟨Domain.le_trans (hin.lower_le p hp) hlow,
    Domain.le_trans hhigh (hin.le_upper p hp)⟩)

/-- **What a bucket becomes by both batches** it becomes by one after the other. -/
theorem refinesTo_append_iff (hD : D.Strict) (hb : D.le b.lower b.upper = true)
    (happ : Apart D [b] first second) (hrep : ¬ Repeats D (first ++ second)) :
    RefinesTo D (sorted D (first ++ second)) b g ↔ ∃ mid, RefinesTo D (sorted D first) b mid ∧
      Expands (RefinesTo D (sorted D second)) mid g := by
  obtain ⟨hfirst, hsecond, _⟩ := repeats_append_iff.1 hrep
  have happend : talliesIn D b (first ++ second) = talliesIn D b first ++ talliesIn D b second :=
    List.filter_append ..
  by_cases hnone : talliesIn D b second = []
  · rw [hnone, List.append_nil] at happend
    rw [refinesTo_congr (talliesIn_sorted_eq hrep hfirst (happend ▸ .refl _))]
    have hstay : ∀ mid, RefinesTo D (sorted D first) b mid →
        (Expands (RefinesTo D (sorted D second)) mid g ↔ g = mid) := fun mid hmid =>
      expands_iff_of_untouched
        ((inside_of_refinesTo hD hb (ascending_sorted_iff.2 hfirst) hmid).talliesIn_eq_nil
          (talliesIn_sorted_eq_nil hnone))
    constructor
    · exact fun hg => ⟨g, hg, (hstay g hg).2 rfl⟩
    · rintro ⟨mid, hmid, hg⟩
      exact (hstay mid hmid).1 hg ▸ hmid
  · have hnil := happ.talliesIn_eq_nil (List.mem_singleton_self b) hnone
    rw [hnil, List.nil_append] at happend
    rw [refinesTo_congr (talliesIn_sorted_eq hrep hsecond (happend ▸ .refl _))]
    simp only [refinesTo_iff_of_untouched (talliesIn_sorted_eq_nil hnil), exists_eq_left,
      expands_singleton_iff]

/-! ## Covered values -/

/-- A value in a bucket that stays is covered by what the buckets become. -/
theorem covers_of_untouched (hexp : Expands (RefinesTo D ts) bs mid) (hb : b ∈ bs)
    (hbv : b.contains D v = true) (h : talliesIn D b ts = []) : Covers D mid v := by
  obtain ⟨groups, hg, rfl⟩ := hexp
  obtain ⟨g, hgm, hbg⟩ := exists_right_of_forall₂ hg hb
  rw [refinesTo_iff_of_untouched h] at hbg
  exact ⟨b, List.mem_flatten.2 ⟨g, hgm, hbg ▸ List.mem_singleton_self b⟩, hbv⟩

/-- **What the buckets become covers no other values.** -/
theorem covers_of_expands (hD : D.Strict) (hv : Valid D bs) (ha : Ascending D ts)
    (hexp : Expands (RefinesTo D ts) bs mid) (h : Covers D mid v) : Covers D bs v := by
  obtain ⟨groups, hg, rfl⟩ := hexp
  obtain ⟨p, hp, hpv⟩ := h
  obtain ⟨g, hgm, hpg⟩ := List.mem_flatten.1 hp
  obtain ⟨b, hb, hbg⟩ := exists_left_of_forall₂ hg hgm
  have hin := inside_of_refinesTo hD (hv.bounds b hb) ha hbg
  obtain ⟨hlow, hhigh⟩ := contains_iff.1 hpv
  exact ⟨b, hb, contains_iff.2 ⟨Domain.le_trans (hin.lower_le p hpg) hlow,
    Domain.le_trans hhigh (hin.le_upper p hpg)⟩⟩

/-! ## Two batches -/

section Strict

variable (hD : D.Strict) (hspan : ∀ a c, 0 < D.span a c)
include hD hspan

/-- **Refining by both batches at once** is refining by one after the other. -/
theorem refine_append_eq_ok_iff (happ : Apart D h.buckets first second) :
    (h.refine (first ++ second)).result = .ok s ↔
      ∃ m, (h.refine first).result = .ok m ∧ (m.refine second).result = .ok s := by
  simp only [refine_eq_ok_iff hspan]
  have hcomp : ¬ Repeats D (first ++ second) →
      (Expands (RefinesTo D (sorted D (first ++ second))) h.buckets s.buckets ↔
        ∃ mid, Expands (RefinesTo D (sorted D first)) h.buckets mid ∧
          Expands (RefinesTo D (sorted D second)) mid s.buckets) := fun hrep =>
    expands_comp_iff fun b hb g => refinesTo_append_iff hD (h.valid.bounds b hb)
      (List.forall_mem_singleton.2 (happ b hb)) hrep
  constructor
  · rintro ⟨hrep, hcov, hexp⟩
    obtain ⟨hfirst, hsecond, _⟩ := repeats_append_iff.1 hrep
    obtain ⟨hcov₁, hcov₂⟩ := List.forall_mem_append.1 hcov
    obtain ⟨_, ⟨groups, hgroups, rfl⟩, hexp⟩ := (hcomp hrep).1 hexp
    have hv := valid_flatten_of_refinesTo hD hspan h.valid (ascending_sorted_iff.2 hfirst) hgroups
    refine ⟨⟨groups.flatten, hv⟩, ⟨hfirst, hcov₁, groups, hgroups, rfl⟩, hsecond, ?_, hexp⟩
    intro u hu
    obtain ⟨b, hb, hbu⟩ := hcov₂ u hu
    have hne : talliesIn D b second ≠ [] := List.ne_nil_of_mem (mem_talliesIn.2 ⟨hu, hbu⟩)
    have hnil := happ.talliesIn_eq_nil hb hne
    exact covers_of_untouched ⟨groups, hgroups, rfl⟩ hb hbu (talliesIn_sorted_eq_nil hnil)
  · rintro ⟨m, ⟨hfirst, hcov₁, hexp₁⟩, hsecond, hcov₂, hexp₂⟩
    have hcov₂' : ∀ u ∈ second, Covers D h.buckets u.value := fun u hu =>
      covers_of_expands hD h.valid (ascending_sorted_iff.2 hfirst) hexp₁ (hcov₂ u hu)
    have hrep : ¬ Repeats D (first ++ second) := by
      refine repeats_append_iff.2
        ⟨hfirst, hsecond, fun t ht u hu => Bool.eq_false_iff.2 fun hsame => ?_⟩
      obtain ⟨b, hb, hbt⟩ := hcov₁ t ht
      exact happ b hb t ht u hu hbt (contains_of_same hsame hbt)
    exact ⟨hrep, List.forall_mem_append.2 ⟨hcov₁, hcov₂'⟩, (hcomp hrep).2 ⟨_, hexp₁, hexp₂⟩⟩

end Strict

/-- **The order of the values** decides neither about success nor about the result. -/
theorem refine_eq_ok_iff_of_perm (hspan : ∀ a c, 0 < D.span a c) (hp : ts.Perm us) :
    (h.refine ts).result = .ok s ↔ (h.refine us).result = .ok s :=
  ⟨fun hs => refine_eq_of_perm_of_ok hspan hp hs ▸ hs,
    fun hs => refine_eq_of_perm_of_ok hspan hp.symm hs ▸ hs⟩

/-- **Two batches apart can be refined one after the other.** -/
theorem refine_append_iff {k : Kind} (hk : ∀ scale, k ≠ .decimal scale) {h : Histogram k.domain}
    {first second : List (Tally k.Value)} (happ : Apart k.domain h.buckets first second) :
    (∀ s, (h.refine (first ++ second)).result = .ok s ↔
      ∃ m, (h.refine first).result = .ok m ∧ (m.refine second).result = .ok s) ∧
    ∀ s, (∃ m, (h.refine first).result = .ok m ∧ (m.refine second).result = .ok s) ↔
      ∃ m, (h.refine second).result = .ok m ∧ (m.refine first).result = .ok s := by
  have hD : k.domain.Strict := Kind.strict hk
  refine ⟨fun s => refine_append_eq_ok_iff hD k.span_pos happ, fun s => ?_⟩
  rw [← refine_append_eq_ok_iff hD k.span_pos happ,
    ← refine_append_eq_ok_iff hD k.span_pos happ.symm]
  exact refine_eq_ok_iff_of_perm k.span_pos List.perm_append_comm

/-- A batch that divides a bucket and one that counts another, in either order. -/
theorem refine_append_iff_letters : ∃ h s : Histogram Kind.character.domain,
    h.buckets = [⟨'a', 'd', 10⟩, ⟨'f', 'f', 5⟩] ∧
    Apart Kind.character.domain h.buckets [⟨'d', 3⟩] [⟨'f', 4⟩] ∧
    (h.refine ([⟨'d', 3⟩] ++ [⟨'f', 4⟩])).result = .ok s ∧
    s.buckets = [⟨'a', 'c', 7⟩, ⟨'d', 'd', 3⟩, ⟨'f', 'f', 4⟩] ∧
    ∃ m, (h.refine [⟨'f', 4⟩]).result = .ok m ∧ (m.refine [⟨'d', 3⟩]).result = .ok s := by
  let h : Histogram Kind.character.domain :=
    ⟨[⟨'a', 'd', 10⟩, ⟨'f', 'f', 5⟩], by decide, by decide, by decide⟩
  let m : Histogram Kind.character.domain :=
    ⟨[⟨'a', 'c', 7⟩, ⟨'d', 'd', 3⟩, ⟨'f', 'f', 5⟩], by decide, by decide, by decide⟩
  have hfirst : ((h.refine [⟨'d', 3⟩]).result.toOption.map buckets) = some m.buckets := by
    decide +kernel
  have hsecond : ((m.refine [⟨'f', 4⟩]).result.toOption.map buckets) =
      some [⟨'a', 'c', 7⟩, ⟨'d', 'd', 3⟩, ⟨'f', 'f', 4⟩] := by
    decide +kernel
  obtain ⟨m', hm, hbuckets'⟩ := exists_eq_ok hfirst
  obtain rfl : m' = m := eq_of_buckets_eq hbuckets'
  obtain ⟨s, hs, hbuckets⟩ := exists_eq_ok hsecond
  have happ : Apart Kind.character.domain h.buckets [⟨'d', 3⟩] [⟨'f', 4⟩] := by
    unfold Apart
    decide
  obtain ⟨hboth, hswap⟩ := refine_append_iff (k := .character) nofun happ
  exact ⟨h, s, rfl, happ, (hboth s).2 ⟨m, hm, hs⟩, hbuckets, (hswap s).1 ⟨m, hm, hs⟩⟩

end CatalogStats.Histogram
