import CatalogStats.Proofs.Histogram.Lookup

/-!
# Proofs/Histogram/Estimates — estimates never overcount

On a lattice the values of a bucket have the numbers between those of its bounds, each once, so the
span of the bucket is how many there are (`length_of_listsValues`), and distinct values in it are no
more (`countP_contains_le_span`).  Each of them is estimated at the even part of the frequency, rounded
down.  Summing first over the values inside one bucket and then over the buckets, distinct values are
estimated at no more than the total (`estimates_le`).
-/

namespace CatalogStats

namespace Domain.Lattice

variable {α : Type} {D : Domain α} {on : α → Prop} (L : D.Lattice on) {a b : α}

/-- **Every number between two values** belongs to a value. -/
theorem exists_index (ha : on a) (hb : on b) {i : ℤ} (hai : L.index a ≤ i) (hib : i ≤ L.index b) :
    ∃ c, on c ∧ L.index c = i := by
  induction i, hai using Int.leInduction with
  | base => exact ⟨a, ha, rfl⟩
  | succ i hai ih =>
    obtain ⟨c, hc, hidx⟩ := ih (by omega)
    obtain ⟨d, _, hd, hnext⟩ := L.exists_next? hc hb (by omega)
    exact ⟨d, hd, by omega⟩

/-- Where all values are on the lattice, each number belongs to one of them. -/
theorem index_injective (hD : D.Strict) (hon : ∀ v, on v) : Function.Injective L.index :=
  fun a b h => hD.eq_of_same ((L.same_iff (hon a) (hon b)).2 h)

end Domain.Lattice

namespace Histogram

variable {α : Type} {D : Domain α} {on : α → Prop} {h : Histogram D} {b : Bucket α} {v : α}
  {vs : List α}

/-! ## The values of a bucket -/

/-- All values of a bucket, each listed once. -/
def ListsValues (D : Domain α) (b : Bucket α) (vs : List α) : Prop :=
  vs.Nodup ∧ ∀ v, v ∈ vs ↔ b.contains D v = true

theorem length_pos_of_listsValues (hb : D.le b.lower b.upper = true) (hvs : ListsValues D b vs) :
    0 < vs.length :=
  List.length_pos_of_mem ((hvs.2 b.lower).2 (contains_iff.2 ⟨Domain.le_refl, hb⟩))

section Lattice

variable (L : D.Lattice on)

/-- The numbers of the values of a bucket. -/
def numbers (b : Bucket α) : List ℤ :=
  (List.range (b.span D)).map fun i : ℕ => L.index b.lower + i

theorem nodup_numbers (b : Bucket α) : (numbers L b).Nodup :=
  List.nodup_range.map fun _ _ h => Int.natCast_inj.1 (Int.add_left_cancel h)

theorem length_numbers (b : Bucket α) : (numbers L b).length = b.span D := by
  rw [numbers, List.length_map, List.length_range]

variable (hon : ∀ v, on v)
include L hon

theorem mem_numbers_iff (hb : D.le b.lower b.upper = true) {i : ℤ} :
    i ∈ numbers L b ↔ L.index b.lower ≤ i ∧ i ≤ L.index b.upper := by
  have hidx := (L.le_iff (hon _) (hon _)).1 hb
  have hspan : b.span D = (L.index b.lower - L.index b.upper).natAbs + 1 :=
    L.span_eq (hon _) (hon _)
  simp only [numbers, List.mem_map, List.mem_range]
  constructor
  · rintro ⟨n, hn, rfl⟩
    omega
  · exact fun hi => ⟨(i - L.index b.lower).toNat, by omega, by omega⟩

theorem index_mem_numbers_iff (hb : D.le b.lower b.upper = true) :
    L.index v ∈ numbers L b ↔ b.contains D v = true := by
  rw [mem_numbers_iff L hon hb, contains_iff, L.le_iff (hon _) (hon _), L.le_iff (hon _) (hon _)]

variable (hD : D.Strict)
include hD

/-- **Distinct values in a bucket** are no more than its span. -/
theorem countP_contains_le_span (hb : D.le b.lower b.upper = true) (hvs : vs.Nodup) :
    vs.countP (fun v => b.contains D v) ≤ b.span D := by
  let inside := (vs.filter fun v => b.contains D v).map L.index
  have hnodup : inside.Nodup := (hvs.filter _).map (L.index_injective hD hon)
  have hsub : inside ⊆ numbers L b := fun i hi => by
    obtain ⟨v, hv, rfl⟩ := List.mem_map.1 hi
    exact (index_mem_numbers_iff L hon hb).2 (List.mem_filter.1 hv).2
  have hlen := (hnodup.subperm hsub).length_le
  rwa [length_numbers, List.length_map, ← List.countP_eq_length_filter] at hlen

/-- **The values of a bucket** can be listed… -/
theorem exists_listsValues (hb : D.le b.lower b.upper = true) : ∃ vs, ListsValues D b vs := by
  have hvalue : ∀ i ∈ numbers L b, ∃ v, i = L.index v := fun i hi => by
    obtain ⟨hlow, hhigh⟩ := (mem_numbers_iff L hon hb).1 hi
    obtain ⟨v, _, hidx⟩ := L.exists_index (hon _) (hon _) hlow hhigh
    exact ⟨v, hidx.symm⟩
  obtain ⟨vs, hvs⟩ := exists_forall₂ hvalue
  have hmap : numbers L b = vs.map L.index := by
    rwa [← List.forall₂_eq_eq_eq, List.forall₂_map_right_iff]
  refine ⟨vs, .of_map L.index (hmap ▸ nodup_numbers L b), fun v => ?_⟩
  rw [← index_mem_numbers_iff L hon hb, hmap,
    List.mem_map_of_injective (L.index_injective hD hon)]

/-- …and are as many as its span. -/
theorem length_of_listsValues (hb : D.le b.lower b.upper = true) (hvs : ListsValues D b vs) :
    vs.length = b.span D := by
  obtain ⟨hnodup, hmem⟩ := hvs
  have hperm : (vs.map L.index).Perm (numbers L b) := by
    refine (List.perm_ext_iff_of_nodup (hnodup.map (L.index_injective hD hon))
      (nodup_numbers L b)).2 fun i => ?_
    constructor
    · intro hi
      obtain ⟨v, hv, rfl⟩ := List.mem_map.1 hi
      exact (index_mem_numbers_iff L hon hb).2 ((hmem v).1 hv)
    · intro hi
      obtain ⟨hlow, hhigh⟩ := (mem_numbers_iff L hon hb).1 hi
      obtain ⟨v, _, rfl⟩ := L.exists_index (hon _) (hon _) hlow hhigh
      exact List.mem_map_of_mem ((hmem v).2 ((index_mem_numbers_iff L hon hb).1 hi))
  rw [← length_numbers L, ← hperm.length_eq, List.length_map]

/-! ## The sum of estimates -/

/-- What one bucket gives to distinct values is at most its frequency. -/
theorem sumOf_evenPart_le (hb : D.le b.lower b.upper = true) (hvs : vs.Nodup) :
    sumOf (vs.map fun v => evenPart D v b) ≤ b.frequency := by
  have hcount := countP_contains_le_span L hon hD hb hvs
  simp only [evenPart]
  rw [sumOf_map_ite]
  calc vs.countP (fun v => b.contains D v) * (b.frequency / max (b.span D) 1)
      ≤ max (b.span D) 1 * (b.frequency / max (b.span D) 1) :=
        Nat.mul_le_mul_right _ (hcount.trans (Nat.le_max_left _ _))
    _ ≤ b.frequency := Nat.mul_div_le _ _

/-- **Distinct values are estimated at no more than the total.** -/
theorem sumOf_estimate_le (hvs : vs.Nodup) : sumOf (vs.map h.estimate) ≤ h.total := by
  calc sumOf (vs.map h.estimate)
      = sumOf (vs.map fun v => sumOf (h.buckets.map (evenPart D v))) :=
        congrArg sumOf (List.map_congr_left fun _ _ => estimate_eq_sumOf)
    _ = sumOf (h.buckets.map fun b => sumOf (vs.map fun v => evenPart D v b)) :=
        sumOf_map_sumOf_map _ _ _
    _ ≤ sumOf (h.buckets.map Bucket.frequency) :=
        sumOf_map_le fun b hb => sumOf_evenPart_le L hon hD (h.valid.bounds b hb) hvs
    _ = h.total := (Bucket.total_eq_sumOf _).symm

/-- **The values of one bucket** are estimated at its frequency, less the remainder of the division. -/
theorem sumOf_estimate_add_mod (hb : b ∈ h.buckets) (hvs : ListsValues D b vs) :
    sumOf (vs.map h.estimate) + b.frequency % vs.length = b.frequency := by
  have hle := h.valid.bounds b hb
  have hlen := length_of_listsValues L hon hD hle hvs
  have hpos := length_pos_of_listsValues hle hvs
  have hestimate : ∀ v ∈ vs, h.estimate v = b.frequency / vs.length := fun v hv => by
    rw [estimate_of_contains hb ((hvs.2 v).1 hv), ← hlen, Nat.max_eq_left hpos]
  rw [List.map_congr_left hestimate, List.map_const', sumOf_eq_sum, List.sum_replicate_nat]
  exact Nat.div_add_mod _ _

end Lattice

/-- **Estimates never overcount.**  In a domain of whole numbers, dates or characters the estimates of
distinct values sum to no more than the total.  Those of all values of a bucket sum to no more than
its frequency, and fall short of it by less than the number of values.  An estimate has 64 bits. -/
theorem estimates_le {k : Kind} (hdec : ∀ scale, k ≠ .decimal scale) (hstr : k ≠ .string)
    (h : Histogram k.domain) :
    (∀ vs : List k.Value, vs.Nodup → sumOf (vs.map h.estimate) ≤ h.total) ∧
    (∀ b ∈ h.buckets, (∃ vs, ListsValues k.domain b vs) ∧ ∀ vs, ListsValues k.domain b vs →
      vs.length = b.span k.domain ∧ sumOf (vs.map h.estimate) ≤ b.frequency ∧
      b.frequency < sumOf (vs.map h.estimate) + vs.length) ∧
    ∀ v, (UInt64.ofNat (h.estimate v)).toNat = h.estimate v := by
  have hD := Kind.strict hdec
  have hon : ∀ v, k.OnGrid v := Kind.onGrid hdec
  let L := k.lattice hstr
  refine ⟨fun vs hvs => sumOf_estimate_le L hon hD hvs, fun b hb => ⟨?_, fun vs hvs => ?_⟩, ?_⟩
  · exact exists_listsValues L hon hD (h.valid.bounds b hb)
  · have hle := h.valid.bounds b hb
    have hsum := sumOf_estimate_add_mod L hon hD hb hvs
    have hmod := Nat.mod_lt b.frequency (length_pos_of_listsValues hle hvs)
    exact ⟨length_of_listsValues L hon hD hle hvs, by omega, by omega⟩
  · exact fun v => UInt64.toNat_ofNat_of_lt (estimate_le_total.trans_lt h.valid.total_lt)

/-- Eight rows in three letters: two for each letter, and two that no estimate accounts for. -/
theorem estimates_le_letters : ∃ h : Histogram Kind.character.domain,
    h.buckets = [⟨'a', 'c', 8⟩] ∧ ListsValues Kind.character.domain ⟨'a', 'c', 8⟩ ['a', 'b', 'c'] ∧
    ['z', 'b', 'a'].map h.estimate = [0, 2, 2] ∧ sumOf (['z', 'b', 'a'].map h.estimate) ≤ 8 ∧
    sumOf (['a', 'b', 'c'].map h.estimate) ≤ 8 ∧
    8 < sumOf (['a', 'b', 'c'].map h.estimate) + 3 ∧
    (UInt64.ofNat (h.estimate 'b')).toNat = h.estimate 'b' := by
  let h : Histogram Kind.character.domain := ⟨[⟨'a', 'c', 8⟩], by decide, by decide, by decide⟩
  have hvalues : ListsValues Kind.character.domain ⟨'a', 'c', 8⟩ ['a', 'b', 'c'] := by
    refine ⟨by decide, fun v => ⟨fun hv => ?_, fun hv => ?_⟩⟩
    · simp only [List.mem_cons, List.not_mem_nil, or_false] at hv
      rcases hv with rfl | rfl | rfl <;> decide
    · obtain ⟨hlow, hhigh⟩ := contains_iff.1 hv
      have hlow : (97 : ℤ) ≤ Character.numbering.index v := Numbering.domain_le.1 hlow
      have hhigh : Character.numbering.index v ≤ 99 := Numbering.domain_le.1 hhigh
      have hcases : Character.numbering.index v ∈ ['a', 'b', 'c'].map Character.numbering.index := by
        change _ ∈ [(97 : ℤ), 98, 99]
        simp only [List.mem_cons, List.not_mem_nil, or_false]
        omega
      exact (List.mem_map_of_injective fun _ _ => Character.numbering.index_inj).1 hcases
  obtain ⟨hdistinct, hbucket, hwidth⟩ := estimates_le (k := .character) nofun nofun h
  obtain ⟨_, hle, hlt⟩ := (hbucket ⟨'a', 'c', 8⟩ (List.mem_singleton_self _)).2 _ hvalues
  exact ⟨h, rfl, hvalues, by decide, hdistinct ['z', 'b', 'a'] (by decide), hle, hlt, hwidth 'b'⟩

end Histogram

end CatalogStats
