import CatalogStats.Proofs.Histogram.Validity

/-!
# Proofs/Histogram/Acceptance — what building a list of buckets comes to

Building compares each bucket only with the one before it, which is enough: in a list that is
separated neighbour by neighbour no two buckets share a value (`Separated.disjoint`).  A list is
refused at its first bucket that is inverted or starts too early (`offence_of_boundsFault?`), and
without such a bucket only if the frequencies pass 64 bits (`verdict_ofBuckets`).
-/

namespace CatalogStats.Histogram

variable {α : Type} {D : Domain α} {bs done : List (Bucket α)} {b c : Bucket α} {f : Fault α}
  {n : ℕ}

/-! ## Neighbour by neighbour -/

/-- **Buckets of which each ends before the next one starts.** -/
structure Separated (D : Domain α) (bs : List (Bucket α)) : Prop where
  bounds : ∀ b ∈ bs, D.le b.lower b.upper = true
  chain : bs.IsChain fun a b => D.lt a.upper b.lower = true

theorem Separated.nil : Separated D [] := ⟨nofun, .nil⟩

theorem Separated.tail (h : Separated D (b :: bs)) : Separated D bs :=
  ⟨fun c hc => h.bounds c (List.mem_cons_of_mem _ hc), h.chain.tail⟩

/-- A bucket that starts after the last one has ended may be added. -/
theorem Separated.concat (h : Separated D bs) (hb : D.le b.lower b.upper = true)
    (hlast : ∀ p ∈ bs.getLast?, D.lt p.upper b.lower = true) : Separated D (bs ++ [b]) where
  bounds := List.forall_mem_append.2 ⟨h.bounds, List.forall_mem_singleton.2 hb⟩
  chain := by
    refine List.isChain_append.2 ⟨h.chain, .singleton b, fun p hp c hc => ?_⟩
    obtain rfl := Option.some.inj hc
    exact hlast p hp

/-- **Every bucket ends before every later one starts**: those between them have bounds in order. -/
theorem Separated.ordered (h : Separated D bs) :
    bs.Pairwise fun a b => D.lt a.upper b.lower = true := by
  induction bs with
  | nil => exact .nil
  | cons a bs ih =>
    have hbs := ih h.tail
    refine List.pairwise_cons.2 ⟨?_, hbs⟩
    cases bs with
    | nil => exact nofun
    | cons b bs =>
      have hab : D.lt a.upper b.lower = true := h.chain.rel
      have hb : D.le b.lower b.upper = true := h.tail.bounds b List.mem_cons_self
      refine List.forall_mem_cons.2 ⟨hab, fun c hc => ?_⟩
      have hbc : D.lt b.upper c.lower = true := List.rel_of_pairwise_cons hbs hc
      exact Domain.lt_of_lt_of_le hab (Domain.le_trans hb (Domain.le_of_lt hbc))

/-- **No two buckets share a value.** -/
theorem Separated.disjoint (h : Separated D bs) :
    bs.Pairwise fun a b => ∀ v, ¬ (a.contains D v = true ∧ b.contains D v = true) :=
  h.ordered.imp fun hlt _ hv => not_contains_of_lt hlt hv.1 hv.2

/-- **A histogram is a separated list** of at most 64 bits of rows. -/
theorem valid_iff_separated : Valid D bs ↔ Separated D bs ∧ Bucket.total bs < 18446744073709551616 :=
  ⟨fun h => ⟨⟨h.bounds, h.ordered.isChain⟩, h.total_lt⟩,
    fun ⟨h, ht⟩ => ⟨h.bounds, h.ordered, ht⟩⟩

/-! ## The first offence -/

/-- **The first bucket that breaks the separation**, and the fault that names it. -/
inductive Offence (D : Domain α) (bs : List (Bucket α)) : Fault α → Prop
  /-- The bucket ends before it starts. -/
  | inverted (before after : List (Bucket α)) (b : Bucket α) (hbs : bs = before ++ b :: after)
    (hbefore : Separated D before) (hb : D.lt b.upper b.lower = true) :
    Offence D bs (.inverted before.length b.lower b.upper)
  /-- The bucket starts where the one before it has not ended. -/
  | overlapping (before after : List (Bucket α)) (p b : Bucket α)
    (hbs : bs = before ++ p :: b :: after) (hbefore : Separated D (before ++ [p]))
    (hb : D.le b.lower b.upper = true) (hpb : D.le b.lower p.upper = true) :
    Offence D bs (.overlapping (before.length + 1) b.lower p.upper)

/-- The walk names the first offence.  The induction is on the buckets it has still to pass: those it
has passed are separated, their number is the index, and the last of them ends at `previous`. -/
theorem offence_of_boundsFault? (hdone : Separated D done)
    (h : boundsFault? D done.length (done.getLast?.map Bucket.upper) bs = some f) :
    Offence D (done ++ bs) f := by
  induction bs generalizing done with
  | nil => cases h
  | cons b bs ih =>
    rw [boundsFault?] at h
    split at h
    case isTrue hb =>
      obtain rfl := Option.some.inj h
      exact .inverted done bs b rfl hdone hb
    case isFalse hb =>
      have hb : D.le b.lower b.upper = true := Domain.not_lt.1 (Bool.eq_false_iff.2 hb)
      split at h
      case h_1 v hv =>
        obtain rfl := Option.some.inj h
        obtain ⟨hlast, hle⟩ := Option.filter_eq_some_iff.1 hv
        obtain ⟨p, hp, rfl⟩ := Option.map_eq_some_iff.1 hlast
        obtain ⟨before, rfl⟩ := List.getLast?_eq_some_iff.1 hp
        have hoffence := Offence.overlapping before bs p b rfl hdone hb hle
        simpa using hoffence
      case h_2 hnone =>
        have hlast : ∀ p ∈ done.getLast?, D.lt p.upper b.lower = true := fun p hp =>
          Domain.not_le.1 (Bool.eq_false_iff.2
            (Option.filter_eq_none_iff.1 hnone p.upper (Option.mem_map_of_mem _ hp)))
        have hrest := @ih (done ++ [b]) (hdone.concat hb hlast) (by simpa using h)
        simpa using hrest

/-- The walk passes a separated list, and no other. -/
theorem boundsFault?_eq_none_iff : boundsFault? D 0 none bs = none ↔ Separated D bs := by
  constructor
  · intro h
    obtain ⟨hbounds, hordered, _⟩ := bounds_of_boundsFault?_eq_none h
    exact ⟨hbounds, hordered.isChain⟩
  · exact fun h => boundsFault?_eq_none h.bounds h.ordered nofun

/-! ## The sum of the frequencies -/

/-- The buckets are too many at the first one with which the sum passes 64 bits. -/
theorem tooMany_of_totalFault? (hn : n < 18446744073709551616) (h : totalFault? n bs = some f) :
    ∃ before b after, bs = before ++ b :: after ∧
      n + Bucket.total before < 18446744073709551616 ∧
      18446744073709551616 ≤ n + Bucket.total before + b.frequency ∧
      f = .tooMany b.lower b.upper := by
  induction bs generalizing n with
  | nil => cases h
  | cons b bs ih =>
    rw [totalFault?] at h
    split at h
    case isFalse hb =>
      exact ⟨[], b, bs, rfl, hn, Nat.not_lt.1 hb, (Option.some.inj h).symm⟩
    case isTrue hb =>
      obtain ⟨before, c, after, rfl, hlt, hle, hf⟩ := ih hb h
      refine ⟨b :: before, c, after, rfl, ?_, ?_, hf⟩
      · rwa [Bucket.total, ← Nat.add_assoc]
      · rwa [Bucket.total, ← Nat.add_assoc]

/-! ## The verdict -/

/-- **Building passes over the bounds, then over the frequencies**, and fails where one of them does. -/
theorem ofBuckets_cases (D : Domain α) (bs : List (Bucket α)) :
    (∃ f, boundsFault? D 0 none bs = some f ∧ ofBuckets D bs = .error f) ∨
      boundsFault? D 0 none bs = none ∧
        ((∃ f, totalFault? 0 bs = some f ∧ ofBuckets D bs = .error f) ∨
          ∃ h : Valid D bs, ofBuckets D bs = .ok ⟨bs, h⟩) := by
  cases hbounds : boundsFault? D 0 none bs with
  | some f =>
    exact .inl ⟨f, rfl, ofBuckets_of_fault? (by rw [fault?, hbounds, Option.some_or])⟩
  | none =>
    refine .inr ⟨rfl, ?_⟩
    cases htotal : totalFault? 0 bs with
    | some f =>
      have hfault : fault? D bs = some f := by rw [fault?, hbounds, Option.none_or, htotal]
      exact .inl ⟨f, rfl, ofBuckets_of_fault? hfault⟩
    | none =>
      have hvalid : Valid D bs :=
        valid_of_fault?_eq_none (by rw [fault?, hbounds, Option.none_or, htotal])
      exact .inr ⟨hvalid, ofBuckets_of_valid hvalid⟩

/-- **What building a list of buckets comes to.** -/
inductive Verdict (D : Domain α) (bs : List (Bucket α)) :
    Except (Fault α) (Histogram D) → Prop
  /-- The list is accepted, unchanged. -/
  | accepted (h : Valid D bs) : Verdict D bs (.ok ⟨bs, h⟩)
  /-- The list is refused at its first bucket that breaks the separation. -/
  | refused (f : Fault α) (h : Offence D bs f) : Verdict D bs (.error f)
  /-- The list is separated, and refused at the first bucket with which it holds too many rows. -/
  | tooMany (before after : List (Bucket α)) (b : Bucket α) (hbs : bs = before ++ b :: after)
    (h : Separated D bs) (hlt : Bucket.total before < 18446744073709551616)
    (hle : 18446744073709551616 ≤ Bucket.total before + b.frequency) :
    Verdict D bs (.error (.tooMany b.lower b.upper))

/-- **Building a list of buckets** comes to one of these verdicts. -/
theorem verdict_ofBuckets (D : Domain α) (bs : List (Bucket α)) :
    Verdict D bs (ofBuckets D bs) := by
  obtain ⟨f, hbounds, heq⟩ | ⟨hbounds, ⟨f, htotal, heq⟩ | ⟨hvalid, heq⟩⟩ := ofBuckets_cases D bs
  · rw [heq]
    exact .refused f (offence_of_boundsFault? .nil hbounds)
  · obtain ⟨before, b, after, hbs, hlt, hle, rfl⟩ := tooMany_of_totalFault? (by decide) htotal
    rw [Nat.zero_add] at hlt hle
    rw [heq]
    exact .tooMany before after b hbs (boundsFault?_eq_none_iff.1 hbounds) hlt hle
  · rw [heq]
    exact .accepted hvalid

end CatalogStats.Histogram
