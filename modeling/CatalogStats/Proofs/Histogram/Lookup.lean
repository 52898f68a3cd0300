import CatalogStats.Proofs.Histogram.Batches

/-!
# Proofs/Histogram/Lookup — the bucket that holds a value

The lookup compares a value with the upper ends of the buckets, and with the lower end only of the
first bucket that does not end before it.  Because the buckets stand in order this is enough: a
bucket passed over ends before any bucket behind it starts (`Valid.positionIn_of_contains`), so the
lookup finds the one bucket that contains the value (`position?_eq_some_iff`), or the value is below
all buckets, above all of them or between two neighbours (`not_covers_iff_misses`).

What is estimated after refining is then known by membership alone: a counted value has its exact
bucket, and no bucket contains a value that none contained before (`lookup_iff_contains`).
-/

namespace CatalogStats.Histogram

variable {α : Type} {D : Domain α} {h s : Histogram D} {bs : List (Bucket α)} {b : Bucket α}
  {v : α} {i : ℕ}

/-! ## The scan -/

/-- The bucket that is found contains the value… -/
theorem contains_of_positionIn (hi : positionIn D v bs = some i) :
    ∃ b, bs[i]? = some b ∧ b.contains D v = true := by
  induction bs generalizing i with
  | nil => cases hi
  | cons b bs ih =>
    rw [positionIn] at hi
    split at hi
    case isTrue hupper =>
      split at hi
      case isTrue => cases hi
      case isFalse hlower =>
        obtain rfl := Option.some.inj hi
        have hlower := Domain.not_lt.1 (Bool.eq_false_iff.2 hlower)
        exact ⟨b, rfl, contains_iff.2 ⟨hlower, hupper⟩⟩
    case isFalse =>
      obtain ⟨j, hj, rfl⟩ := Option.map_eq_some_iff.1 hi
      exact ih hj

/-- …and a bucket in order that contains the value is found: the buckets in front of it are passed
over because they end before it starts. -/
theorem Valid.positionIn_of_contains (hv : Valid D bs) (hb : bs[i]? = some b)
    (hbv : b.contains D v = true) : positionIn D v bs = some i := by
  obtain ⟨hlower, hupper⟩ := contains_iff.1 hbv
  induction bs generalizing i with
  | nil => cases hb
  | cons c bs ih =>
    cases i with
    | zero =>
      obtain rfl := Option.some.inj hb
      rw [positionIn, if_pos hupper, if_neg (Domain.not_lt_of_le hlower)]
    | succ i =>
      have hafter : D.lt c.upper v = true :=
        Domain.lt_of_lt_of_le (hv.lt_of_mem (List.mem_of_getElem? hb)) hlower
      rw [positionIn, if_neg (Domain.not_le_of_lt hafter), ih hv.tail hb, Option.map_some]

/-- **A value in no bucket splits the buckets** into those that end before it and those that start
after it. -/
theorem Valid.not_covers_iff (hv : Valid D bs) : ¬ Covers D bs v ↔
    ∃ before after, bs = before ++ after ∧ (∀ b ∈ before, D.lt b.upper v = true) ∧
      ∀ b ∈ after, D.lt v b.lower = true := by
  constructor
  · intro hnone
    induction bs with
    | nil => exact ⟨[], [], rfl, nofun, nofun⟩
    | cons b bs ih =>
      obtain hupper | hupper := Bool.eq_false_or_eq_true (D.le v b.upper)
      · have hlower : D.lt v b.lower = true := Domain.not_le.1 (Bool.eq_false_iff.2 fun hle =>
          hnone ⟨b, List.mem_cons_self, contains_iff.2 ⟨hle, hupper⟩⟩)
        exact ⟨[], b :: bs, rfl, nofun, fun c hc => Domain.lt_of_lt_of_le hlower (hv.lower_le hc)⟩
      · have hrest : ¬ Covers D bs v := fun ⟨c, hc, hcv⟩ => hnone ⟨c, List.mem_cons_of_mem _ hc, hcv⟩
        obtain ⟨before, after, rfl, hbefore, hafter⟩ := ih hv.tail hrest
        exact ⟨b :: before, after, rfl,
          List.forall_mem_cons.2 ⟨Domain.not_le.1 hupper, hbefore⟩, hafter⟩
  · rintro ⟨before, after, rfl, hbefore, hafter⟩ ⟨b, hb, hbv⟩
    obtain ⟨hlower, hupper⟩ := contains_iff.1 hbv
    rcases List.mem_append.1 hb with hb | hb
    · exact Domain.not_le_of_lt (hbefore b hb) hupper
    · exact Domain.not_le_of_lt (hafter b hb) hlower

/-- A value between two neighbours is in no bucket. -/
theorem Valid.not_covers_of_infix (hv : Valid D bs) {p q : Bucket α} (hin : [p, q] <:+: bs)
    (hp : D.lt p.upper v = true) (hq : D.lt v q.lower = true) : ¬ Covers D bs v := by
  obtain ⟨init, rest, rfl⟩ := hin
  have hsplit : init ++ [p, q] ++ rest = (init ++ [p]) ++ (q :: rest) := by simp
  have hbefore : Valid D (init ++ [p]) := hv.sublist (hsplit ▸ List.sublist_append_left _ _)
  have hafter : Valid D (q :: rest) := hv.sublist (hsplit ▸ List.sublist_append_right _ _)
  exact hv.not_covers_iff.2 ⟨_, _, hsplit,
    fun b hb => Domain.lt_of_le_of_lt (hbefore.upper_le hb) hp,
    fun b hb => Domain.lt_of_lt_of_le hq (hafter.lower_le hb)⟩

/-! ## The lookup -/

/-- **The lookup finds a place** exactly when the bucket there contains the value. -/
theorem position?_eq_some_iff :
    h.position? v = some i ↔ ∃ b, h.buckets[i]? = some b ∧ b.contains D v = true :=
  ⟨contains_of_positionIn, fun ⟨_, hb, hbv⟩ => h.valid.positionIn_of_contains hb hbv⟩

/-- …and none exactly when no bucket does. -/
theorem position?_eq_none_iff : h.position? v = none ↔ ¬ Covers D h.buckets v := by
  rw [← Option.not_isSome_iff_eq_none, not_iff_not, Option.isSome_iff_exists]
  simp only [position?_eq_some_iff]
  constructor
  · rintro ⟨i, b, hb, hbv⟩
    exact ⟨b, List.mem_of_getElem? hb, hbv⟩
  · rintro ⟨b, hb, hbv⟩
    obtain ⟨i, hi⟩ := List.getElem?_of_mem hb
    exact ⟨i, b, hi, hbv⟩

/-- The bucket that is found is the one that contains the value. -/
theorem bucket?_eq_some_iff : h.bucket? v = some b ↔ b ∈ h.buckets ∧ b.contains D v = true := by
  rw [bucket?, Option.bind_eq_some_iff]
  constructor
  · rintro ⟨i, hi, hb⟩
    obtain ⟨c, hc, hcv⟩ := position?_eq_some_iff.1 hi
    obtain rfl := Option.some.inj (hc.symm.trans hb)
    exact ⟨List.mem_of_getElem? hb, hcv⟩
  · rintro ⟨hb, hbv⟩
    obtain ⟨i, hi⟩ := List.getElem?_of_mem hb
    exact ⟨i, position?_eq_some_iff.2 ⟨b, hi, hbv⟩, hi⟩

theorem bucket?_eq_none_iff : h.bucket? v = none ↔ ¬ Covers D h.buckets v := by
  rw [Option.eq_none_iff_forall_ne_some]
  constructor
  · rintro hnone ⟨b, hb, hbv⟩
    exact hnone b (bucket?_eq_some_iff.2 ⟨hb, hbv⟩)
  · exact fun hnone b hb => hnone ⟨b, bucket?_eq_some_iff.1 hb⟩

/-- A value that misses every bucket: there is none, or it lies below the least value, above the
greatest, or between two neighbours. -/
def Misses (h : Histogram D) (v : α) : Prop :=
  h.buckets = [] ∨ (∃ low, h.min? = some low ∧ D.lt v low = true) ∨
    (∃ high, h.max? = some high ∧ D.lt high v = true) ∨
    ∃ p q, [p, q] <:+: h.buckets ∧ D.lt p.upper v = true ∧ D.lt v q.lower = true

theorem misses_of_split {before after : List (Bucket α)} (hsplit : h.buckets = before ++ after)
    (hbefore : ∀ b ∈ before, D.lt b.upper v = true) (hafter : ∀ b ∈ after, D.lt v b.lower = true) :
    h.Misses v := by
  obtain rfl | ⟨init, p, rfl⟩ := before.eq_nil_or_concat'
  · cases after with
    | nil => exact .inl hsplit
    | cons q rest =>
      have hmin : h.min? = some q.lower := by rw [min?, hsplit]; rfl
      exact .inr (.inl ⟨q.lower, hmin, hafter q List.mem_cons_self⟩)
  · have hp := hbefore p (List.mem_append_right _ (List.mem_singleton_self p))
    cases after with
    | nil =>
      have hmax : h.max? = some p.upper := by
        rw [max?, hsplit, List.append_nil, List.getLast?_concat, Option.map_some]
      exact .inr (.inr (.inl ⟨p.upper, hmax, hp⟩))
    | cons q rest =>
      refine .inr (.inr (.inr ⟨p, q, ⟨init, rest, ?_⟩, hp, hafter q List.mem_cons_self⟩))
      rw [hsplit, List.append_assoc, List.append_assoc]
      rfl

theorem not_covers_of_misses (hmiss : h.Misses v) : ¬ Covers D h.buckets v := by
  intro hcov
  obtain ⟨low, high, hmin, hmax, hlow, hhigh⟩ := inRange_of_covers hcov
  rcases hmiss with hnil | ⟨low', hmin', hlt⟩ | ⟨high', hmax', hlt⟩ | ⟨p, q, hin, hp, hq⟩
  · obtain ⟨b, hb, _⟩ := hcov
    exact List.not_mem_nil (hnil ▸ hb)
  · obtain rfl := Option.some.inj (hmin.symm.trans hmin')
    exact Domain.not_le_of_lt hlt hlow
  · obtain rfl := Option.some.inj (hmax.symm.trans hmax')
    exact Domain.not_le_of_lt hlt hhigh
  · exact h.valid.not_covers_of_infix hin hp hq hcov

/-- **The ways to be in no bucket.** -/
theorem not_covers_iff_misses : ¬ Covers D h.buckets v ↔ h.Misses v := by
  refine ⟨fun hnone => ?_, not_covers_of_misses⟩
  obtain ⟨before, after, hsplit, hbefore, hafter⟩ := h.valid.not_covers_iff.1 hnone
  exact misses_of_split hsplit hbefore hafter

/-! ## The estimate -/

/-- **A value in a bucket** takes its even part of the frequency… -/
theorem estimate_of_contains (hb : b ∈ h.buckets) (hbv : b.contains D v = true) :
    h.estimate v = b.frequency / max (b.span D) 1 := by
  rw [estimate, bucket?_eq_some_iff.2 ⟨hb, hbv⟩]

/-- …and a value in none takes nothing. -/
theorem estimate_of_not_covers (hv : ¬ Covers D h.buckets v) : h.estimate v = 0 := by
  rw [estimate, bucket?_eq_none_iff.2 hv]

/-- The part of a bucket's frequency that goes to one value. -/
def evenPart (D : Domain α) (v : α) (b : Bucket α) : ℕ :=
  if b.contains D v then b.frequency / max (b.span D) 1 else 0

theorem Valid.sumOf_evenPart (hv : Valid D bs) (hb : b ∈ bs) (hbv : b.contains D v = true) :
    sumOf (bs.map (evenPart D v)) = b.frequency / max (b.span D) 1 := by
  induction bs with
  | nil => cases hb
  | cons c bs ih =>
    rw [List.map_cons, sumOf_cons]
    rcases List.mem_cons.1 hb with rfl | hb
    · have hrest : sumOf (bs.map (evenPart D v)) = 0 := by
        rw [sumOf_eq_zero_iff, List.forall_mem_map]
        exact fun c hc => if_neg (not_contains_of_lt (hv.lt_of_mem hc) hbv)
      rw [evenPart, if_pos hbv, hrest, Nat.add_zero]
    · have hc : ¬ c.contains D v = true := fun hcv => not_contains_of_lt (hv.lt_of_mem hb) hcv hbv
      rw [evenPart, if_neg hc, Nat.zero_add, ih hv.tail hb]

/-- **The estimate is the sum of what the buckets give**, of which at most one gives anything. -/
theorem estimate_eq_sumOf : h.estimate v = sumOf (h.buckets.map (evenPart D v)) := by
  by_cases hcov : Covers D h.buckets v
  · obtain ⟨b, hb, hbv⟩ := hcov
    rw [estimate_of_contains hb hbv, h.valid.sumOf_evenPart hb hbv]
  · rw [estimate_of_not_covers hcov, eq_comm, sumOf_eq_zero_iff, List.forall_mem_map]
    exact fun b hb => if_neg fun hbv => hcov ⟨b, hb, hbv⟩

/-- No estimate exceeds the total. -/
theorem estimate_le_total : h.estimate v ≤ h.total := by
  by_cases hcov : Covers D h.buckets v
  · obtain ⟨b, hb, hbv⟩ := hcov
    rw [estimate_of_contains hb hbv]
    exact (Nat.div_le_self _ _).trans (Bucket.frequency_le_total hb)
  · rw [estimate_of_not_covers hcov]
    exact Nat.zero_le _

/-- The estimate of a value with an exact bucket is its count. -/
theorem estimate_of_single_mem (hspan : D.span v v = 1) {n : ℕ}
    (hb : .single v n ∈ h.buckets) : h.estimate v = n := by
  have hone : (Bucket.single v n).span D = 1 := hspan
  rw [estimate_of_contains hb (contains_single v n), hone, Nat.max_self, Nat.div_one, Bucket.single]

/-- **The lookup agrees with membership**: it finds the one bucket that contains a value, and misses
exactly the values in no bucket.  So after refining every counted value is estimated at its count, and
in a domain with strict steps a value that was in no bucket at zero. -/
theorem lookup_iff_contains (k : Kind) :
    (∀ (h : Histogram k.domain) (v : k.Value),
      (∀ i, h.position? v = some i ↔
        ∃ b, h.buckets[i]? = some b ∧ b.contains k.domain v = true) ∧
      h.buckets.countP (fun b => b.contains k.domain v) ≤ 1 ∧
      (h.position? v = none ↔ ∀ b ∈ h.buckets, b.contains k.domain v = false) ∧
      (h.position? v = none ↔ h.Misses v)) ∧
    ∀ (h s : Histogram k.domain) (tallies : List (Tally k.Value)),
      (h.refine tallies).result = .ok s →
        (∀ t ∈ tallies, s.estimate t.value = t.count.toNat) ∧
        ((∀ scale, k ≠ .decimal scale) → ∀ v,
          (∀ b ∈ h.buckets, b.contains k.domain v = false) → s.estimate v = 0) := by
  have hnone : ∀ (h : Histogram k.domain) (v : k.Value),
      (∀ b ∈ h.buckets, b.contains k.domain v = false) ↔ ¬ Covers k.domain h.buckets v := by
    simp only [Covers, not_exists, not_and, Bool.not_eq_true, implies_true]
  constructor
  · intro h v
    rw [hnone, position?_eq_none_iff]
    exact ⟨fun _ => position?_eq_some_iff, h.valid.countP_contains_le_one v, Iff.rfl,
      not_covers_iff_misses⟩
  · intro h s tallies hs
    refine ⟨fun t ht => ?_, fun hdec v hv => ?_⟩
    · exact estimate_of_single_mem (k.span_self t.value) (single_mem_of_refine k.span_pos hs ht)
    · obtain ⟨hrep, _, hgroups⟩ := (refine_eq_ok_iff k.span_pos).1 hs
      refine estimate_of_not_covers fun hcov => (hnone h v).1 hv ?_
      exact covers_of_expands (Kind.strict hdec) h.valid (ascending_sorted_iff.2 hrep) hgroups hcov

/-- Two buckets with a gap, the second cut at its start: the count, and nothing in the gap. -/
theorem lookup_iff_contains_letters : ∃ h s : Histogram Kind.character.domain,
    h.buckets = [⟨'a', 'b', 6⟩, ⟨'d', 'j', 100⟩] ∧ (h.refine [⟨'d', 10⟩]).result = .ok s ∧
    s.buckets = [⟨'a', 'b', 6⟩, ⟨'d', 'd', 10⟩, ⟨'e', 'j', 90⟩] ∧
    s.position? 'd' = some 1 ∧ s.position? 'c' = none ∧
    s.estimate 'd' = 10 ∧ s.estimate 'c' = 0 := by
  let h : Histogram Kind.character.domain :=
    ⟨[⟨'a', 'b', 6⟩, ⟨'d', 'j', 100⟩], by decide, by decide, by decide⟩
  have hs : ((h.refine [⟨'d', 10⟩]).result.toOption.map buckets) =
      some [⟨'a', 'b', 6⟩, ⟨'d', 'd', 10⟩, ⟨'e', 'j', 90⟩] := by
    decide +kernel
  obtain ⟨s, hs, hbuckets⟩ := exists_eq_ok hs
  obtain ⟨hlookup, hestimate⟩ := lookup_iff_contains .character
  obtain ⟨hcount, hzero⟩ := hestimate h s _ hs
  refine ⟨h, s, rfl, hs, hbuckets, ?_, ?_, ?_, ?_⟩
  · exact ((hlookup s 'd').1 1).2 ⟨⟨'d', 'd', 10⟩, by rw [hbuckets]; rfl, by decide⟩
  · exact (hlookup s 'c').2.2.1.2 (by rw [hbuckets]; decide)
  · exact hcount ⟨'d', 10⟩ (List.mem_singleton_self _)
  · exact hzero nofun 'c' (by decide)

end CatalogStats.Histogram
