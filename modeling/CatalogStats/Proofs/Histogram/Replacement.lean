import CatalogStats.Proofs.Domain.Steps
import CatalogStats.Proofs.Histogram.Outcome

/-!
# Proofs/Histogram/Replacement — what takes the place of each bucket

In a domain with strict steps the pieces of a bucket stand in order inside it (`inside_of_cut`): a
range ends before the counted value behind it because the previous value is smaller, and starts after
the one in front of it because the next value is greater.  So a refined histogram is made of one group
for each bucket, and no row is lost (`exists_groups_of_refine`).
-/

namespace CatalogStats.Histogram

variable {α : Type} {D : Domain α} {b : Bucket α} {start : Option α} {stop : α}
  {t : Tally α} {tallies ts : List (Tally α)} {pieces : List (Segment α)} {g : List (Bucket α)}
  {h s : Histogram D}

/-! ## Pieces in order -/

/-- **Pieces in order, up to an end.** -/
structure Ordered (D : Domain α) (stop : α) (pieces : List (Segment α)) : Prop where
  bounds : ∀ s ∈ pieces, D.le s.lower s.upper = true
  ordered : pieces.Pairwise fun s q => D.lt s.upper q.lower = true
  le_stop : ∀ s ∈ pieces, D.le s.upper stop = true

theorem Ordered.nil : Ordered D stop [] := ⟨nofun, .nil, nofun⟩

theorem Ordered.cons {s : Segment α} (hbounds : D.le s.lower s.upper = true)
    (hlt : ∀ q ∈ pieces, D.lt s.upper q.lower = true) (hstop : D.le s.upper stop = true)
    (h : Ordered D stop pieces) : Ordered D stop (s :: pieces) where
  bounds := List.forall_mem_cons.2 ⟨hbounds, h.bounds⟩
  ordered := List.pairwise_cons.2 ⟨hlt, h.ordered⟩
  le_stop := List.forall_mem_cons.2 ⟨hstop, h.le_stop⟩

/-- **The pieces around ascending values stand in order.** -/
theorem ordered_segments (hD : D.Strict) (hstart : ∀ l, start = some l → D.le l stop = true)
    (ha : Ascending D ts) (hts : ∀ t ∈ ts, D.le t.value stop = true)
    (h : segments D stop start ts = .ok pieces) : Ordered D stop pieces := by
  induction ts generalizing start pieces with
  | nil =>
    obtain ⟨_, rfl⟩ | ⟨l, hl, rfl⟩ := segments_nil_eq_ok h
    · exact .nil
    · exact .cons (hstart l hl) nofun Domain.le_refl .nil
  | cons t ts ih =>
    obtain ⟨before, next, others, hbefore, hafter, hothers, rfl⟩ := segments_cons_eq_ok_iff.1 h
    obtain ⟨hlt, ha⟩ := List.pairwise_cons.1 ha
    have hts' := fun u hu => hts u (List.mem_cons_of_mem t hu)
    have hnext : ∀ c, next = some c → D.next? t.value = some c ∧ D.le c stop = true :=
      fun c hc => (startAfter_eq_ok_some_iff.1 (hc ▸ hafter)).2
    -- Every later piece starts above the counted value: the next value does, and steps go up.
    have habove : ∀ q ∈ others, D.lt t.value q.lower = true :=
      lower_of_mem_segments (fun hc hstep => Domain.lt_trans hc (hD.lt_of_next? hstep))
        (fun c hc => hD.lt_of_next? (hnext c hc).1) hlt hothers
    have htop : D.le t.value stop = true := hts t List.mem_cons_self
    have hexact : Ordered D stop (.exact t :: others) :=
      .cons Domain.le_refl habove htop (ih (fun c hc => (hnext c hc).2) ha hts' hothers)
    obtain rfl | ⟨l, u, _, _, hprev, hle, rfl⟩ := rangeBefore_eq_ok hbefore
    · exact hexact
    · have hu := hD.lt_of_previous? hprev
      refine .cons hle (List.forall_mem_cons.2 ⟨hu, fun q hq => ?_⟩) ?_ hexact
      · exact Domain.lt_trans hu (habove q hq)
      · exact Domain.le_trans (Domain.le_of_lt hu) htop

/-- Buckets with the bounds of pieces in order are in order. -/
theorem inside_of_fills (hf : List.Forall₂ Fills pieces g) (ho : Ordered D b.upper pieces)
    (hlow : ∀ s ∈ pieces, D.le b.lower s.lower = true) : Inside D b g := by
  have hpiece : ∀ p ∈ g, ∃ s ∈ pieces, p.lower = s.lower ∧ p.upper = s.upper := by
    intro p hp
    obtain ⟨s, hs, hfills⟩ := exists_left_of_forall₂ hf hp
    cases hfills <;> exact ⟨_, hs, rfl, rfl⟩
  refine ⟨fun p hp => ?_, (pairwise_iff_of_fills hf).2 ho.ordered, fun p hp => ?_, fun p hp => ?_⟩ <;>
    obtain ⟨s, hs, hl, hu⟩ := hpiece p hp
  · exact hl ▸ hu ▸ ho.bounds s hs
  · exact hl ▸ hlow s hs
  · exact hu ▸ ho.le_stop s hs

/-- **The pieces of a bucket stand in order inside it.** -/
theorem inside_of_cut (hD : D.Strict) (hb : D.le b.lower b.upper = true) (ha : Ascending D ts)
    (hts : ∀ t ∈ ts, b.contains D t.value = true) (h : cut D b ts = .ok g) : Inside D b g := by
  obtain ⟨_, _, pieces, hpieces, _, rfl⟩ := cut_eq_ok_iff.1 h
  have hpieces' := ordered_segments hD (fun l hl => Option.some.inj hl ▸ hb) ha
    (fun t ht => (contains_iff.1 (hts t ht)).2) hpieces
  refine inside_of_fills (fills_fill _ _) hpieces' ?_
  refine lower_of_mem_segments (P := fun c => D.le b.lower c = true) (fun hc hstep => ?_)
    (fun c hc => Option.some.inj hc ▸ Domain.le_refl)
    (fun t ht => (contains_iff.1 (hts t ht)).1) hpieces
  exact Domain.le_trans hc (Domain.le_of_lt (hD.lt_of_next? hstep))

/-- …and so do the buckets of a group. -/
theorem inside_of_refinesTo (hD : D.Strict) (hb : D.le b.lower b.upper = true)
    (ha : Ascending D ts) (h : RefinesTo D ts b g) : Inside D b g := by
  obtain ⟨_, rfl⟩ | ⟨t, ht, _, _, rfl⟩ | ⟨_, _, hcut⟩ := (refinesTo_iff ha).1 h
  · exact .self hb
  · exact .single (mem_talliesIn.1 (ht ▸ List.mem_singleton_self t)).2 _
  · exact inside_of_cut hD hb ha.talliesIn (fun t ht => (mem_talliesIn.1 ht).2) hcut

/-! ## Groups -/

/-- **What takes the place of a bucket**, given counted values. -/
inductive Replaces (D : Domain α) (tallies : List (Tally α)) (b : Bucket α) :
    List (Bucket α) → Prop
  /-- A bucket without counted values stays. -/
  | untouched (h : talliesIn D b tallies = []) : Replaces D tallies b [b]
  /-- An exact bucket has a single counted value, whose count takes the place of its frequency. -/
  | counted (t : Tally α) (hb : b.isExact D = true) (h : talliesIn D b tallies = [t])
    (hle : t.count.toNat ≤ b.frequency) : Replaces D tallies b [.single t.value t.count.toNat]
  /-- Any other bucket is divided into buckets that hold its frequency. -/
  | divided (g : List (Bucket α)) (hb : b.isExact D = false) (h : talliesIn D b tallies ≠ [])
    (hne : g ≠ []) (hin : Inside D b g) (htotal : Bucket.total g = b.frequency)
    (hexact : ∀ t ∈ talliesIn D b tallies, .single t.value t.count.toNat ∈ g) :
    Replaces D tallies b g

/-- Every counted value inside a bucket is exact in what takes its place. -/
theorem Replaces.single_mem (h : Replaces D tallies b g) (ht : t ∈ talliesIn D b tallies) :
    .single t.value t.count.toNat ∈ g := by
  cases h with
  | untouched h => rw [h] at ht; cases ht
  | counted u hb h hle =>
    rw [h, List.mem_singleton] at ht
    rw [ht]
    exact List.mem_singleton_self _
  | divided g hb h hne hin htotal hexact => exact hexact t ht

/-- The counted values of a cut are exact. -/
theorem single_mem_of_cut (h : cut D b ts = .ok g) (ht : t ∈ ts) :
    .single t.value t.count.toNat ∈ g := by
  obtain ⟨_, _, pieces, hpieces, _, rfl⟩ := cut_eq_ok_iff.1 h
  exact single_mem_fill (mem_counted.1 (counted_segments hpieces ▸ ht)) _

/-- The counted values inside a bucket are exact in its group. -/
theorem single_mem_of_refinesTo (ha : Ascending D ts) (hg : RefinesTo D ts b g)
    (ht : t ∈ talliesIn D b ts) : .single t.value t.count.toNat ∈ g := by
  obtain ⟨hnil, _⟩ | ⟨u, hu, _, _, rfl⟩ | ⟨_, _, hcut⟩ := (refinesTo_iff ha).1 hg
  · rw [hnil] at ht
    cases ht
  · rw [hu, List.mem_singleton] at ht
    exact ht ▸ List.mem_singleton_self _
  · exact single_mem_of_cut hcut ht

/-- **The group of a bucket takes its place.** -/
theorem replaces_of_refinesTo (hD : D.Strict) (hspan : ∀ a c, 0 < D.span a c)
    (hb : D.le b.lower b.upper = true) (hp : ts.Perm tallies) (ha : Ascending D ts)
    (h : RefinesTo D ts b g) : Replaces D tallies b g := by
  have hperm : (talliesIn D b ts).Perm (talliesIn D b tallies) := talliesIn_perm hp
  obtain ⟨hnil, rfl⟩ | ⟨t, ht, hexact, hle, rfl⟩ | ⟨hne, hrange, hcut⟩ := (refinesTo_iff ha).1 h
  · exact .untouched (hnil ▸ hperm).nil_eq.symm
  · exact .counted t hexact (ht ▸ hperm).singleton_eq.symm hle
  · have hsingle : ∀ t ∈ talliesIn D b tallies, .single t.value t.count.toNat ∈ g :=
      fun t ht => single_mem_of_cut hcut (hperm.mem_iff.2 ht)
    obtain ⟨t, ht⟩ := List.exists_mem_of_ne_nil _ hne
    refine .divided g hrange (fun hnil => hne ?_) ?_ (inside_of_refinesTo hD hb ha h)
      (total_of_cut hspan hcut) hsingle
    · exact (hnil ▸ hperm).eq_nil
    · exact List.ne_nil_of_mem (hsingle t (hperm.mem_iff.1 ht))

/-! ## The refined histogram -/

section Refine

variable (hspan : ∀ a c, 0 < D.span a c) (hs : (h.refine tallies).result = .ok s)
include hspan hs

/-- **Every counted value has an exact bucket.** -/
theorem single_mem_of_refine (ht : t ∈ tallies) :
    .single t.value t.count.toNat ∈ s.buckets := by
  obtain ⟨hrep, hcov, groups, hg, hbuckets⟩ := (refine_eq_ok_iff hspan).1 hs
  obtain ⟨b, hb, hbt⟩ := hcov t ht
  obtain ⟨g, hgm, hbg⟩ := exists_right_of_forall₂ hg hb
  rw [hbuckets]
  exact List.mem_flatten.2 ⟨g, hgm, single_mem_of_refinesTo (ascending_sorted_iff.2 hrep) hbg
    (mem_talliesIn.2 ⟨mem_sorted.2 ht, hbt⟩)⟩

theorem single_mem_exactPart (ht : t ∈ tallies) :
    .single t.value t.count.toNat ∈ s.exactPart.buckets :=
  List.mem_filter.2 ⟨single_mem_of_refine hspan hs ht, Domain.same_refl⟩

end Refine

/-- **Refining replaces every bucket by a group**: the groups in order are the buckets of the result,
every counted value is exact in one of them, and the totals differ by what the notes say. -/
theorem exists_groups_of_refine {k : Kind} (hk : ∀ scale, k ≠ .decimal scale)
    {h s : Histogram k.domain} {tallies : List (Tally k.Value)}
    (hs : (h.refine tallies).result = .ok s) :
    (∃ groups, s.buckets = groups.flatten ∧
      List.Forall₂ (Replaces k.domain tallies) h.buckets groups ∧
      ∀ t ∈ tallies, ∃ g ∈ groups, .single t.value t.count.toNat ∈ g) ∧
    (∀ n ∈ (h.refine tallies).notes, n.count < n.frequency) ∧
    s.total + sumOf ((h.refine tallies).notes.map fun n => n.frequency - n.count) = h.total := by
  refine ⟨?_, fun n hn => count_lt_of_mem_notes k.span_pos hs hn, total_add_notes k.span_pos hs⟩
  obtain ⟨hrep, hcov, groups, hg, hbuckets⟩ := (refine_eq_ok_iff k.span_pos).1 hs
  have hreplaces : List.Forall₂ (Replaces k.domain tallies) h.buckets groups :=
    Forall₂.imp_mem hg fun b hb g _ hbg => replaces_of_refinesTo (Kind.strict hk) k.span_pos
      (h.valid.bounds b hb) (sorted_perm tallies) (ascending_sorted_iff.2 hrep) hbg
  refine ⟨groups, hbuckets, hreplaces, ?_⟩
  intro t ht
  obtain ⟨b, hb, hbt⟩ := hcov t ht
  obtain ⟨g, hgm, hbg⟩ := exists_right_of_forall₂ hreplaces hb
  exact ⟨g, hgm, hbg.single_mem (mem_talliesIn.2 ⟨ht, hbt⟩)⟩

/-- One bucket without a counted value and one that is cut. -/
theorem exists_groups_of_refine_letters : ∃ h s : Histogram Kind.character.domain,
    h.buckets = [⟨'a', 'b', 7⟩, ⟨'d', 'j', 100⟩] ∧ (h.refine [⟨'d', 10⟩]).result = .ok s ∧
    s.buckets = [⟨'a', 'b', 7⟩, ⟨'d', 'd', 10⟩, ⟨'e', 'j', 90⟩] ∧
    (∃ groups, s.buckets = groups.flatten ∧
      List.Forall₂ (Replaces Kind.character.domain [⟨'d', 10⟩]) h.buckets groups) ∧
    s.total = 107 := by
  let h : Histogram Kind.character.domain :=
    ⟨[⟨'a', 'b', 7⟩, ⟨'d', 'j', 100⟩], by decide, by decide, by decide⟩
  have heval : ((h.refine [⟨'d', 10⟩]).result.toOption.map buckets) =
      some [⟨'a', 'b', 7⟩, ⟨'d', 'd', 10⟩, ⟨'e', 'j', 90⟩] := by
    decide +kernel
  obtain ⟨s, hs, hbuckets⟩ := exists_eq_ok heval
  obtain ⟨⟨groups, hflatten, hgroups, _⟩, _, _⟩ :=
    exists_groups_of_refine (k := .character) nofun hs
  exact ⟨h, s, rfl, hs, hbuckets, ⟨groups, hflatten, hgroups⟩, by rw [total, hbuckets]; rfl⟩

end CatalogStats.Histogram
