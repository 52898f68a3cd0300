import CatalogStats.Proofs.Domain.Steps
import CatalogStats.Proofs.Histogram.Outcome
import CatalogStats.Proofs.Histogram.Remainders

/-!
# Proofs/Histogram/Exactness — which exact buckets hold a count

A bucket is exact when its bounds are the same value, and its frequency is then taken for the count of
that value.  A range piece of a single value has such bounds too, although its frequency is a share of
what the counted values left over.  This happens exactly where they leave a value **alone**
(`exact_of_refine_iff`).
-/

namespace CatalogStats.Histogram

variable {α : Type} {D : Domain α} {h s : Histogram D} {b p : Bucket α} {l u v : α} {t : Tally α}
  {tallies ts before after : List (Tally α)} {ps qs pieces : List (Segment α)}
  {g : List (Bucket α)}

/-! ## Values left alone -/

/-- A range can start at a value: where the bucket starts, or after the last counted value below. -/
def StartsRange (D : Domain α) (b : Bucket α) (ts : List (Tally α)) (v : α) : Prop :=
  D.same b.lower v = true ∨ ∃ t ∈ ts, D.lt t.value v = true ∧
    (∀ t' ∈ ts, D.lt t'.value v = true → D.le t'.value t.value = true) ∧
    ∃ w, D.next? t.value = some w ∧ D.same w v = true

/-- A range can end at a value: where the bucket ends, or before the first counted value above. -/
def EndsRange (D : Domain α) (b : Bucket α) (ts : List (Tally α)) (v : α) : Prop :=
  D.same v b.upper = true ∨ ∃ t ∈ ts, D.lt v t.value = true ∧
    (∀ t' ∈ ts, D.lt v t'.value = true → D.le t.value t'.value = true) ∧
    ∃ w, D.previous? t.value = some w ∧ D.same v w = true

/-- **A value that the counted values leave alone** in a bucket: a range starts and ends at it. -/
structure Alone (D : Domain α) (b : Bucket α) (ts : List (Tally α)) (v : α) : Prop where
  contains : b.contains D v = true
  not_counted : ∀ t ∈ ts, D.same t.value v = false
  starts : StartsRange D b ts v
  ends : EndsRange D b ts v

/-- Only which values are counted matters, not their order. -/
theorem Alone.of_mem_iff (hmem : ∀ t, t ∈ ts ↔ t ∈ tallies) (h : Alone D b ts v) :
    Alone D b tallies v := by
  obtain ⟨hin, hne, hstarts, hends⟩ := h
  simp only [StartsRange, EndsRange, hmem] at hne hstarts hends
  exact ⟨hin, hne, hstarts, hends⟩

/-- Where nothing is counted, a bucket that is not exact leaves no value alone. -/
theorem Alone.ne_nil (hb : b.isExact D = false) (h : Alone D b ts v) : ts ≠ [] := by
  rintro rfl
  obtain ⟨_, _, hlower | ⟨_, ht, _⟩, hupper | ⟨_, ht, _⟩⟩ := h
  · cases hb.symm.trans (Domain.same_trans hlower hupper)
  all_goals cases ht

/-- Ascending values of which none is a given one are split by it. -/
theorem exists_split (ha : Ascending D ts) (hne : ∀ t ∈ ts, D.same t.value v = false) :
    ∃ before after, ts = before ++ after ∧ (∀ t ∈ before, D.lt t.value v = true) ∧
      ∀ t ∈ after, D.lt v t.value = true := by
  have hbelow : ts.Pairwise fun s t => D.lt t.value v = true → D.lt s.value v = true :=
    ha.imp fun hlt => Domain.lt_trans hlt
  refine ⟨ts.takeWhile fun t => D.lt t.value v, ts.dropWhile fun t => D.lt t.value v,
    List.takeWhile_append_dropWhile.symm, fun t ht => ?_, fun t ht => ?_⟩
  · rw [takeWhile_eq_filter hbelow] at ht
    exact (List.mem_filter.1 ht).2
  · rw [dropWhile_eq_filter hbelow] at ht
    obtain ⟨ht, hnot⟩ := List.mem_filter.1 ht
    have hle : D.le v t.value = true := Domain.not_lt.1 (by simpa using hnot)
    refine Domain.lt_iff_le_not_same.2 ⟨hle, Bool.eq_false_iff.2 fun hsame => ?_⟩
    cases (hne t ht).symm.trans (Domain.same_symm hsame)

/-- The greatest of ascending values is the last. -/
theorem getLast?_eq_of_greatest (ha : Ascending D ts) (ht : t ∈ ts)
    (hle : ∀ t' ∈ ts, D.le t'.value t.value = true) : ts.getLast? = some t := by
  obtain ⟨as, bs, rfl⟩ := List.append_of_mem ht
  cases bs with
  | nil => exact List.getLast?_concat
  | cons c bs =>
    have hlt : D.lt t.value c.value = true :=
      List.rel_of_pairwise_cons (List.pairwise_append.1 ha).2.1 List.mem_cons_self
    have hc := hle c (List.mem_append_right _ (List.mem_cons_of_mem _ List.mem_cons_self))
    exact absurd hc (Domain.not_le_of_lt hlt)

/-- …and the least is the first. -/
theorem head?_eq_of_least (ha : Ascending D ts) (ht : t ∈ ts)
    (hle : ∀ t' ∈ ts, D.le t.value t'.value = true) : ts.head? = some t := by
  obtain ⟨as, bs, rfl⟩ := List.append_of_mem ht
  cases as with
  | nil => rfl
  | cons c as =>
    have hlt : D.lt c.value t.value = true :=
      (List.pairwise_append.1 ha).2.2 c List.mem_cons_self t List.mem_cons_self
    exact absurd (hle c List.mem_cons_self) (Domain.not_le_of_lt hlt)

/-! ## A value left alone makes a range -/

section Split

variable (ha : Ascending D (before ++ after))
  (hin : ∀ t ∈ before ++ after, b.contains D t.value = true)
  (hbefore : ∀ t ∈ before, D.lt t.value v = true) (hafter : ∀ t ∈ after, D.lt v t.value = true)
include ha hin hbefore hafter

theorem exists_opens (hv : b.contains D v = true) (h : StartsRange D b (before ++ after) v) :
    ∃ l, Opens D b.upper (some b.lower) before l ∧ D.same l v = true := by
  obtain hsame | ⟨t, ht, hlt, hgreatest, w, hw, hsame⟩ := h
  · have hnil : before = [] := List.eq_nil_iff_forall_not_mem.2 fun t ht => by
      have hlt := Domain.lt_of_lt_of_le (hbefore t ht) (Domain.same_iff_le.1 hsame).2
      exact Domain.not_le_of_lt hlt (contains_iff.1 (hin t (List.mem_append_left _ ht))).1
    subst hnil
    exact ⟨b.lower, rfl, hsame⟩
  · have hmem : t ∈ before := (List.mem_append.1 ht).resolve_right fun ht =>
      Domain.not_lt_of_le (Domain.le_of_lt (hafter t ht)) hlt
    have hlast : before.getLast? = some t :=
      getLast?_eq_of_greatest (List.pairwise_append.1 ha).1 hmem fun t' ht' =>
        hgreatest t' (List.mem_append_left _ ht') (hbefore t' ht')
    have hupper := Domain.lt_of_lt_of_le hlt (contains_iff.1 hv).2
    refine ⟨w, ?_, hsame⟩
    rw [Opens, hlast]
    exact startAfter_eq_ok_some_iff.2 ⟨Domain.not_same_of_lt hupper, hw,
      Domain.le_trans (Domain.same_iff_le.1 hsame).1 (contains_iff.1 hv).2⟩

theorem exists_closes (h : EndsRange D b (before ++ after) v) (hl : D.same l v = true) :
    ∃ u, Closes D b.upper l after u ∧ D.same v u = true := by
  obtain hsame | ⟨t, ht, hlt, hleast, w, hw, hsame⟩ := h
  · have hnil : after = [] := List.eq_nil_iff_forall_not_mem.2 fun t ht => by
      have hlt := Domain.lt_of_le_of_lt (Domain.same_iff_le.1 hsame).2 (hafter t ht)
      exact Domain.not_le_of_lt hlt (contains_iff.1 (hin t (List.mem_append_right _ ht))).2
    subst hnil
    exact ⟨b.upper, rfl, hsame⟩
  · have hmem : t ∈ after := (List.mem_append.1 ht).resolve_left fun ht =>
      Domain.not_lt_of_le (Domain.le_of_lt (hbefore t ht)) hlt
    have hhead : after.head? = some t :=
      head?_eq_of_least (List.pairwise_append.1 ha).2.1 hmem fun t' ht' =>
        hleast t' (List.mem_append_right _ ht') (hafter t' ht')
    obtain ⟨rest, rfl⟩ := List.head?_eq_some_iff.1 hhead
    have hlv := Domain.same_iff_le.1 hl
    exact ⟨w, ⟨Domain.lt_of_le_of_lt hlv.1 hlt, hw,
      Domain.le_trans hlv.1 (Domain.same_iff_le.1 hsame).1⟩, hsame⟩

end Split

/-- **A value left alone becomes a range of its own.** -/
theorem exists_range_of_alone (ha : Ascending D ts)
    (hin : ∀ t ∈ ts, b.contains D t.value = true)
    (h : segments D b.upper (some b.lower) ts = .ok pieces) (hv : Alone D b ts v) :
    ∃ l u, .range l u ∈ pieces ∧ D.same l v = true ∧ D.same v u = true := by
  obtain ⟨before, after, rfl, hbefore, hafter⟩ := exists_split ha hv.not_counted
  obtain ⟨l, hopen, hl⟩ := exists_opens ha hin hbefore hafter hv.contains hv.starts
  obtain ⟨u, hclose, hu⟩ := exists_closes ha hin hbefore hafter hv.ends hl
  exact ⟨l, u, exists_range_of_opens_closes h hopen hclose, hl, hu⟩

/-! ## A range of one value leaves it alone -/

theorem lt_of_mem_counted (h : (ps ++ .range l u :: qs).Pairwise
    fun p q => D.lt p.upper q.lower = true) :
    (∀ t ∈ counted ps, D.lt t.value l = true) ∧ ∀ t ∈ counted qs, D.lt u t.value = true := by
  obtain ⟨_, hqs, hps⟩ := List.pairwise_append.1 h
  exact ⟨fun t ht => hps _ (mem_counted.1 ht) _ List.mem_cons_self,
    fun t ht => List.rel_of_pairwise_cons hqs (mem_counted.1 ht)⟩

theorem startsRange_of_opens (hb : D.le b.lower b.upper = true) (ha : Ascending D (before ++ after))
    (hin : ∀ t ∈ before, b.contains D t.value = true)
    (hbefore : ∀ t ∈ before, D.lt t.value l = true) (hafter : ∀ t ∈ after, D.lt l t.value = true)
    (h : Opens D b.upper (some b.lower) before l) :
    b.contains D l = true ∧ StartsRange D b (before ++ after) l := by
  rw [Opens] at h
  cases hlast : before.getLast? with
  | none =>
    rw [hlast] at h
    obtain rfl := Option.some.inj h
    exact ⟨contains_iff.2 ⟨Domain.le_refl, hb⟩, .inl Domain.same_refl⟩
  | some t =>
    rw [hlast] at h
    obtain ⟨_, hnext, hle⟩ := startAfter_eq_ok_some_iff.1 h
    obtain ⟨init, rfl⟩ := List.getLast?_eq_some_iff.1 hlast
    have ht : t ∈ init ++ [t] := List.mem_append_right _ (List.mem_singleton_self t)
    have hlt := hbefore t ht
    refine ⟨contains_iff.2 ⟨?_, hle⟩,
      .inr ⟨t, List.mem_append_left _ ht, hlt, fun t' ht' hlt' => ?_, l, hnext, Domain.same_refl⟩⟩
    · exact Domain.le_trans (contains_iff.1 (hin t ht)).1 (Domain.le_of_lt hlt)
    · have ht' : t' ∈ init ++ [t] := (List.mem_append.1 ht').resolve_right fun ht' =>
        Domain.not_lt_of_le (Domain.le_of_lt (hafter t' ht')) hlt'
      rcases List.mem_append.1 ht' with ht' | ht'
      · have hinit := (List.pairwise_append.1 (List.pairwise_append.1 ha).1).2.2
        exact Domain.le_of_lt (hinit t' ht' t (List.mem_singleton_self t))
      · rw [List.mem_singleton.1 ht']
        exact Domain.le_refl

theorem endsRange_of_closes (ha : Ascending D (before ++ after))
    (hbefore : ∀ t ∈ before, D.lt t.value l = true) (hsame : D.same l u = true)
    (h : Closes D b.upper l after u) : EndsRange D b (before ++ after) l := by
  cases after with
  | nil =>
    obtain rfl : u = b.upper := h
    exact .inl hsame
  | cons t after =>
    obtain ⟨hlt, hprev, _⟩ := h
    refine .inr ⟨t, List.mem_append_right _ List.mem_cons_self, hlt, fun t' ht' hlt' => ?_,
      u, hprev, hsame⟩
    have ht' : t' ∈ t :: after := (List.mem_append.1 ht').resolve_left fun ht' =>
      Domain.not_lt_of_le (Domain.le_of_lt (hbefore t' ht')) hlt'
    rcases List.mem_cons.1 ht' with rfl | ht'
    · exact Domain.le_refl
    · exact Domain.le_of_lt (List.rel_of_pairwise_cons (List.pairwise_append.1 ha).2.1 ht')

/-- **A range of a single value is one that the counted values leave alone**, where the pieces stand
in order. -/
theorem alone_of_range (hb : D.le b.lower b.upper = true) (ha : Ascending D ts)
    (hin : ∀ t ∈ ts, b.contains D t.value = true)
    (h : segments D b.upper (some b.lower) ts = .ok (ps ++ .range l u :: qs))
    (hordered : (ps ++ .range l u :: qs).Pairwise fun p q => D.lt p.upper q.lower = true)
    (hsame : D.same l u = true) : Alone D b ts l := by
  obtain ⟨hopen, hclose⟩ := opens_closes_of_segments h
  obtain ⟨hbefore, hafter⟩ := lt_of_mem_counted hordered
  obtain rfl : counted ps ++ counted qs = ts := by
    rw [← counted_segments h, counted_append, counted_cons_range]
  have hafter : ∀ t ∈ counted qs, D.lt l t.value = true := fun t ht =>
    Domain.lt_of_le_of_lt (Domain.same_iff_le.1 hsame).1 (hafter t ht)
  obtain ⟨hl, hstarts⟩ := startsRange_of_opens hb ha
    (fun t ht => hin t (List.mem_append_left _ ht)) hbefore hafter hopen
  refine ⟨hl, ?_, hstarts, endsRange_of_closes ha hbefore hsame hclose⟩
  intro t ht
  rcases List.mem_append.1 ht with ht | ht
  · exact Domain.not_same_of_lt (hbefore t ht)
  · refine Bool.eq_false_iff.2 fun hsame => ?_
    cases (Domain.not_same_of_lt (hafter t ht)).symm.trans (Domain.same_symm hsame)

/-! ## The refined histogram -/

theorem exists_range_of_refinesTo (ha : Ascending D ts) (hb : b.isExact D = false)
    (hg : RefinesTo D ts b g) (hv : Alone D b (talliesIn D b ts) v) :
    ∃ l u n, (⟨l, u, n⟩ : Bucket α) ∈ g ∧ D.same l v = true ∧ D.same v u = true := by
  obtain ⟨hnil, _⟩ | ⟨_, _, hexact, _⟩ | ⟨_, _, hcut⟩ := (refinesTo_iff ha).1 hg
  · exact absurd hnil (hv.ne_nil hb)
  · cases hb.symm.trans hexact
  · obtain ⟨_, _, pieces, hpieces, _, rfl⟩ := cut_eq_ok_iff.1 hcut
    obtain ⟨l, u, hmem, hl, hu⟩ := exists_range_of_alone ha.talliesIn
      (fun t ht => (mem_talliesIn.1 ht).2) hpieces hv
    obtain ⟨n, hn⟩ := range_mem_fill hmem _
    exact ⟨l, u, n, hn, hl, hu⟩

/-- What an exact bucket of a group can be. -/
theorem exact_of_refinesTo (ha : Ascending D ts) (hb : D.le b.lower b.upper = true)
    (hg : RefinesTo D ts b g) (hv : Valid D g) (hp : p ∈ g) (hexact : p.isExact D = true) :
    p = b ∨ (∃ t ∈ ts, p = .single t.value t.count.toNat) ∨
      (b.isExact D = false ∧ Alone D b (talliesIn D b ts) p.lower) := by
  obtain ⟨_, rfl⟩ | ⟨t, ht, _, _, rfl⟩ | ⟨_, hrange, hcut⟩ := (refinesTo_iff ha).1 hg
  · exact .inl (List.mem_singleton.1 hp)
  · have hmem := (mem_talliesIn.1 (ht ▸ List.mem_singleton_self t)).1
    exact .inr (.inl ⟨t, hmem, List.mem_singleton.1 hp⟩)
  · obtain ⟨_, _, pieces, hpieces, _, rfl⟩ := cut_eq_ok_iff.1 hcut
    obtain ⟨t, ht, rfl⟩ | ⟨l, u, n, hmem, rfl⟩ := mem_fill hp
    · have ht : t ∈ talliesIn D b ts := counted_segments hpieces ▸ mem_counted.2 ht
      exact .inr (.inl ⟨t, (mem_talliesIn.1 ht).1, rfl⟩)
    · obtain ⟨ps, qs, rfl⟩ := List.append_of_mem hmem
      exact .inr (.inr ⟨hrange, alone_of_range hb ha.talliesIn (fun t ht => (mem_talliesIn.1 ht).2)
        hpieces ((pairwise_iff_of_fills (fills_fill _ _)).1 hv.ordered) hexact⟩)

/-- **An exact bucket of a refined histogram is a counted value or was exact before**, unless the
counted values leave a value alone: its bucket is exact as well, and holds a share. -/
theorem exact_of_refine_iff {k : Kind} {h s : Histogram k.domain} {tallies : List (Tally k.Value)}
    (hs : (h.refine tallies).result = .ok s) :
    (∀ p ∈ s.buckets, p.isExact k.domain = true →
      (∃ t ∈ tallies, p = .single t.value t.count.toNat) ∨ p ∈ h.buckets) ↔
    ∀ b ∈ h.buckets, b.isExact k.domain = false →
      ∀ v, ¬ Alone k.domain b (talliesIn k.domain b tallies) v := by
  obtain ⟨hrep, _, groups, hg, hbuckets⟩ := (refine_eq_ok_iff k.span_pos).1 hs
  have ha : Ascending k.domain (sorted k.domain tallies) := ascending_sorted_iff.2 hrep
  have hmem : ∀ b t, t ∈ talliesIn k.domain b (sorted k.domain tallies) ↔
      t ∈ talliesIn k.domain b tallies := by
    intro b t
    rw [mem_talliesIn, mem_sorted, mem_talliesIn]
  constructor
  · intro hexact b hb hrange v hv
    obtain ⟨g, hgm, hbg⟩ := exists_right_of_forall₂ hg hb
    obtain ⟨l, u, n, hp, hl, hu⟩ :=
      exists_range_of_refinesTo ha hrange hbg (hv.of_mem_iff fun t => (hmem b t).symm)
    have hps : ⟨l, u, n⟩ ∈ s.buckets := hbuckets ▸ List.mem_flatten.2 ⟨g, hgm, hp⟩
    obtain ⟨t, ht, heq⟩ | hph := hexact _ hps (Domain.same_trans hl hu)
    · obtain rfl : l = t.value := congrArg Bucket.lower heq
      have htb := contains_of_same (Domain.same_symm hl) hv.contains
      cases (hv.not_counted t (mem_talliesIn.2 ⟨ht, htb⟩)).symm.trans hl
    · have hpv : (⟨l, u, n⟩ : Bucket k.Value).contains k.domain v = true :=
        contains_iff.2 ⟨(Domain.same_iff_le.1 hl).1, (Domain.same_iff_le.1 hu).1⟩
      obtain rfl := h.valid.eq_of_contains hph hb hpv hv.contains
      cases hrange.symm.trans (Domain.same_trans hl hu)
  · intro hnone p hp hexact
    rw [hbuckets] at hp
    obtain ⟨g, hgm, hpg⟩ := List.mem_flatten.1 hp
    obtain ⟨b, hb, hbg⟩ := exists_left_of_forall₂ hg hgm
    have hgv : Valid k.domain g := s.valid.sublist (hbuckets ▸ List.sublist_flatten_of_mem hgm)
    obtain rfl | ⟨t, ht, rfl⟩ | ⟨hrange, hv⟩ :=
      exact_of_refinesTo ha (h.valid.bounds b hb) hbg hgv hpg hexact
    · exact .inr hb
    · exact .inl ⟨t, mem_sorted.1 ht, rfl⟩
    · exact absurd (hv.of_mem_iff (hmem b)) (hnone b hb hrange _)

/-- A bucket of five values, cut around the second of them. -/
theorem cut_letters : cut Kind.character.domain ⟨'a', 'e', 100⟩ [⟨'b', 10⟩] =
    .ok [⟨'a', 'a', 23⟩, ⟨'b', 'b', 10⟩, ⟨'c', 'e', 67⟩] := by
  have hexact : Allotment.Exact 90 [1, 3] := ⟨by decide, by decide, by decide⟩
  have hshares : Allotment.shares 90 [1, 3] = [23, 67] := by
    rw [hexact.shares_eq]
    decide +kernel
  refine cut_eq_ok_iff.2 ⟨by decide, by decide,
    [.range 'a' 'a', .exact ⟨'b', 10⟩, .range 'c' 'e'], by decide, nofun, ?_⟩
  change _ = fill _ (Allotment.shares 90 [1, 3])
  rw [hshares]
  rfl

/-- Counting the second of five values leaves the first alone, with a share of what is not counted. -/
theorem not_exact_of_refine : ∃ h s : Histogram Kind.character.domain,
    h.buckets = [⟨'a', 'e', 100⟩] ∧ (h.refine [⟨'b', 10⟩]).result = .ok s ∧
    s.buckets = [⟨'a', 'a', 23⟩, ⟨'b', 'b', 10⟩, ⟨'c', 'e', 67⟩] ∧
    s.exactCounts = [('a', 23), ('b', 10)] ∧
    ¬ ∀ p ∈ s.buckets, p.isExact Kind.character.domain = true →
      (∃ t ∈ [(⟨'b', 10⟩ : Tally Char)], p = .single t.value t.count.toNat) ∨ p ∈ h.buckets := by
  let h : Histogram Kind.character.domain := ⟨[⟨'a', 'e', 100⟩], by decide, by decide, by decide⟩
  let s : Histogram Kind.character.domain :=
    ⟨[⟨'a', 'a', 23⟩, ⟨'b', 'b', 10⟩, ⟨'c', 'e', 67⟩], by decide, by decide, by decide⟩
  have hs : (h.refine [⟨'b', 10⟩]).result = .ok s := by
    refine (refine_eq_ok_iff Kind.character.span_pos).2 ⟨fun hrep => hrep (List.pairwise_singleton _ _),
      List.forall_mem_singleton.2 ⟨_, List.mem_singleton_self _, by decide⟩,
      [s.buckets], .cons ?_ .nil, rfl⟩
    rw [sorted_eq_self (by decide)]
    exact cut_letters
  refine ⟨h, s, rfl, hs, rfl, rfl, fun hall => ?_⟩
  obtain ⟨t, ht, heq⟩ | hmem := hall ⟨'a', 'a', 23⟩ List.mem_cons_self rfl
  · rw [List.mem_singleton.1 ht] at heq
    cases heq
  · cases List.mem_singleton.1 hmem

/-- Counting the first of three values leaves none alone. -/
theorem exact_of_refine_letters : ∃ h s : Histogram Kind.character.domain,
    h.buckets = [⟨'a', 'c', 100⟩] ∧ (h.refine [⟨'a', 10⟩]).result = .ok s ∧
    s.buckets = [⟨'a', 'a', 10⟩, ⟨'b', 'c', 90⟩] ∧
    ∀ b ∈ h.buckets, b.isExact Kind.character.domain = false →
      ∀ v, ¬ Alone Kind.character.domain b (talliesIn Kind.character.domain b [⟨'a', 10⟩]) v := by
  let h : Histogram Kind.character.domain := ⟨[⟨'a', 'c', 100⟩], by decide, by decide, by decide⟩
  have heval : ((h.refine [⟨'a', 10⟩]).result.toOption.map buckets) =
      some [⟨'a', 'a', 10⟩, ⟨'b', 'c', 90⟩] := by
    decide +kernel
  obtain ⟨s, hs, hbuckets⟩ := exists_eq_ok heval
  refine ⟨h, s, rfl, hs, hbuckets, (exact_of_refine_iff (k := .character) hs).1 ?_⟩
  intro p hp hexact
  rw [hbuckets] at hp
  rcases List.mem_cons.1 hp with rfl | hp
  · exact .inl ⟨_, List.mem_singleton_self _, rfl⟩
  · rw [List.mem_singleton.1 hp] at hexact
    cases hexact

end CatalogStats.Histogram
