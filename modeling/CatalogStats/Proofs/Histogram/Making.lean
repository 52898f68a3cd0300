import CatalogStats.Proofs.Histogram.Internal

/-!
# Proofs/Histogram/Making — every histogram that can be made

A histogram is kept as a plain list of buckets beside a total of 64 bits, and not every operation
checks what it makes: the parts of a histogram are only summed.  A `Recipe` is any composition of the
operations.  On the way no sum leaves 64 bits, and what is made is a histogram with its exact total
(`run_eq`).  So all that can be made is sound (`sound_of_run`), and building accepts just what is
sound (`run_built_eq_ok_iff`).
-/

namespace CatalogStats.Histogram

variable {α : Type} {D : Domain α} {bs : List (Bucket α)} {f : Fault α}

/-! ## Stored histograms -/

/-- A histogram as it is kept: its buckets, and beside them their total. -/
structure Stored (α : Type) where
  buckets : List (Bucket α)
  count : UInt64
  deriving Repr, DecidableEq

/-- How a histogram is kept. -/
def record (h : Histogram D) : Stored α := ⟨h.buckets, .ofNat h.total⟩

/-- **A sound record**: bounds in order, each bucket before the next one, no value in two buckets, and
the total exact. -/
structure Stored.Sound (D : Domain α) (s : Stored α) : Prop where
  bounds : ∀ b ∈ s.buckets, D.le b.lower b.upper = true
  chain : s.buckets.IsChain fun a b => D.lt a.upper b.lower = true
  disjoint : s.buckets.Pairwise fun a b => ∀ v, ¬ (a.contains D v = true ∧ b.contains D v = true)
  count_eq : s.count.toNat = Bucket.total s.buckets
  total_le : Bucket.total s.buckets ≤ 18446744073709551615

/-- **What is kept of a histogram is sound**, and nothing else is. -/
theorem sound_iff_exists_record {s : Stored α} : s.Sound D ↔ ∃ h : Histogram D, record h = s := by
  constructor
  · intro h
    have hvalid : Valid D s.buckets :=
      valid_iff_separated.2 ⟨⟨h.bounds, h.chain⟩, Nat.lt_succ_of_le h.total_le⟩
    refine ⟨⟨s.buckets, hvalid⟩, ?_⟩
    change (⟨s.buckets, .ofNat (Bucket.total s.buckets)⟩ : Stored α) = s
    rw [← h.count_eq, UInt64.ofNat_toNat]
  · rintro ⟨h, rfl⟩
    obtain ⟨hseparated, hlt⟩ := valid_iff_separated.1 h.valid
    exact ⟨hseparated.bounds, hseparated.chain, hseparated.disjoint,
      UInt64.toNat_ofNat_of_lt hlt, Nat.le_of_lt_succ hlt⟩

theorem toNat_count_record (h : Histogram D) : (record h).count.toNat = h.total :=
  UInt64.toNat_ofNat_of_lt h.valid.total_lt

/-! ## The running sum -/

/-- The sum of a total and the frequencies, or the bucket with which it passes 64 bits. -/
def runningSum : UInt64 → List (Bucket α) → Except (Bucket α) UInt64
  | sum, [] => .ok sum
  | sum, b :: bs =>
    if sum.toNat + b.frequency < 18446744073709551616 then
      runningSum (sum + .ofNat b.frequency) bs
    else .error b

theorem toNat_add_ofNat {sum : UInt64} {n : ℕ} (h : sum.toNat + n < 18446744073709551616) :
    (sum + .ofNat n).toNat = sum.toNat + n := by
  have hn : n < 18446744073709551616 := Nat.lt_of_le_of_lt (Nat.le_add_left n _) h
  rw [UInt64.toNat_add, UInt64.toNat_ofNat_of_lt' hn]
  exact Nat.mod_eq_of_lt h

/-- **A sum that fits is exact**: no step on the way wraps around. -/
theorem runningSum_eq_ok {sum : UInt64}
    (h : sum.toNat + Bucket.total bs < 18446744073709551616) :
    runningSum sum bs = .ok (.ofNat (sum.toNat + Bucket.total bs)) := by
  induction bs generalizing sum with
  | nil => rw [runningSum, Bucket.total, Nat.add_zero, UInt64.ofNat_toNat]
  | cons b bs ih =>
    rw [Bucket.total, ← Nat.add_assoc] at h ⊢
    have hfit : sum.toNat + b.frequency < 18446744073709551616 :=
      Nat.lt_of_le_of_lt (Nat.le_add_right _ _) h
    rw [← toNat_add_ofNat hfit] at h ⊢
    rw [runningSum, if_pos hfit, ih h]

/-- …and one that does not stops at the bucket that the fault names. -/
theorem exists_runningSum_eq_error {sum : UInt64} (h : totalFault? sum.toNat bs = some f) :
    ∃ b, runningSum sum bs = .error b ∧ f = .tooMany b.lower b.upper := by
  induction bs generalizing sum with
  | nil => cases h
  | cons b bs ih =>
    rw [totalFault?] at h
    split at h
    case isTrue hfit =>
      rw [runningSum, if_pos hfit]
      exact ih (toNat_add_ofNat hfit ▸ h)
    case isFalse hfit =>
      exact ⟨b, by rw [runningSum, if_neg hfit], (Option.some.inj h).symm⟩

/-! ## The operations on records

Where a sum or a difference of counts may leave 64 bits the result is optional; `run_eq` says that
none ever does. -/

namespace Stored

/-- The record without buckets. -/
def empty : Stored α := ⟨[], 0⟩

/-- **Builds a record** of buckets, after two passes: over the bounds, and over the frequencies. -/
def build (D : Domain α) (bs : List (Bucket α)) : Except (Fault α) (Stored α) :=
  match boundsFault? D 0 none bs with
  | some fault => .error fault
  | none =>
    match runningSum 0 bs with
    | .ok count => .ok ⟨bs, count⟩
    | .error b => .error (.tooMany b.lower b.upper)

/-- The record of cumulative counts above a minimum. -/
def ofQuantiles (D : Domain α) (minimum : α) :
    List (Quantile α) → Option (Except (Fault α) (Stored α))
  | [] => some (.ok empty)
  | q :: qs =>
    match firstLower D minimum q.boundary with
    | .error fault => some (.error fault)
    | .ok lower => (checkedBucketsAfter D (firstBucket lower q) q 1 qs).map (· >>= build D)

/-- The record that has only exact counts. -/
def ofTallies (D : Domain α) (tallies : List (Tally α)) : Except (Fault α) (Stored α) := do
  let tallies ← distinct D tallies
  build D (tallies.map fun t => .single t.value t.count.toNat)

/-- The fault of the first counted value that lies below or above all buckets. -/
def rangeFault? (D : Domain α) (s : Stored α) (tallies : List (Tally α)) : Option (Fault α) :=
  match s.buckets.head?, s.buckets.getLast? with
  | some first, some last =>
    (tallies.find? fun t => D.lt t.value first.lower || D.lt last.upper t.value).map
      fun t => .outside t.value first.lower last.upper
  | _, _ => tallies.head?.map fun t => .uncovered t.value

/-- The record itself, if it has an expected total. -/
def verified (s : Stored α) (expected : ℕ) : Except (Fault α) (Stored α) :=
  if s.count.toNat = expected then .ok s else .error (.totalMismatch expected s.count.toNat)

/-- **A record refined by exact counts.**  The expected total is updated along with the buckets. -/
def refine (D : Domain α) (s : Stored α) (tallies : List (Tally α)) :
    Option (Except (Fault α) (Stored α)) :=
  if tallies.isEmpty then some (.ok s)
  else
    match distinct D tallies with
    | .error fault => some (.error fault)
    | .ok tallies =>
      match s.rangeFault? D tallies with
      | some fault => some (.error fault)
      | none =>
        let refined := refineBuckets D s.buckets tallies
        (updated? s.count.toNat refined.notes).map fun expected => do
          let made ← refined.result >>= build D
          made.verified expected

/-- The buckets that pass a test, with their sum for a total; nothing is checked. -/
def filter (p : Bucket α → Bool) (s : Stored α) : Option (Except (Fault α) (Stored α)) :=
  match runningSum 0 (s.buckets.filter p) with
  | .ok count => some (.ok ⟨s.buckets.filter p, count⟩)
  | .error _ => none

end Stored

/-! ## Operation by operation -/

theorem runningSum_of_valid (h : Valid D bs) : runningSum 0 bs = .ok (.ofNat (Bucket.total bs)) := by
  have hfit : (0 : UInt64).toNat + Bucket.total bs < 18446744073709551616 := by
    rw [UInt64.toNat_zero, Nat.zero_add]
    exact h.total_lt
  rw [runningSum_eq_ok hfit, UInt64.toNat_zero, Nat.zero_add]

theorem build_eq (D : Domain α) (bs : List (Bucket α)) :
    Stored.build D bs = (ofBuckets D bs).map record := by
  obtain ⟨f, hbounds, heq⟩ | ⟨hbounds, ⟨f, htotal, heq⟩ | ⟨hvalid, heq⟩⟩ := ofBuckets_cases D bs
  · rw [Stored.build, hbounds, heq]
    rfl
  · have htotal : totalFault? (0 : UInt64).toNat bs = some f := htotal
    obtain ⟨b, hb, rfl⟩ := exists_runningSum_eq_error htotal
    rw [Stored.build, hbounds, hb, heq]
    rfl
  · rw [Stored.build, hbounds, runningSum_of_valid hvalid, heq]
    rfl

theorem bind_build (made : Except (Fault α) (List (Bucket α))) :
    made >>= Stored.build D = (made >>= ofBuckets D).map record := by
  cases made with
  | error f => rfl
  | ok bs => exact build_eq D bs

theorem ofQuantiles_record (D : Domain α) (minimum : α) (rows : List (Quantile α)) :
    Stored.ofQuantiles D minimum rows = some ((ofQuantiles D minimum rows).map record) := by
  cases rows with
  | nil => rfl
  | cons q qs =>
    rw [Stored.ofQuantiles, ofQuantiles]
    cases firstLower D minimum q.boundary with
    | error f => rfl
    | ok lower =>
      dsimp only
      rw [checkedBucketsAfter_eq (Nat.le_refl _), Option.map_some, bind_build]
      rfl

theorem ofTallies_record (D : Domain α) (tallies : List (Tally α)) :
    Stored.ofTallies D tallies = (ofTallies D tallies).map record := by
  rw [Stored.ofTallies, ofTallies]
  cases distinct D tallies with
  | error f => rfl
  | ok ts => exact build_eq D _

theorem rangeFault?_record (h : Histogram D) (tallies : List (Tally α)) :
    (record h).rangeFault? D tallies = h.rangeFault? tallies := by
  rw [Stored.rangeFault?, rangeFault?, min?, max?, record]
  cases h.buckets.head? with
  | none => rfl
  | some first => cases h.buckets.getLast? <;> rfl

theorem verified_record (h : Histogram D) (expected : ℕ) :
    (record h).verified expected = (h.checkTotal expected >>= fun _ => .ok h).map record := by
  rw [Stored.verified, checkTotal, toNat_count_record]
  split <;> rfl

/-- **Refining what is kept** is refining the histogram: the total it expects never leaves 64 bits. -/
theorem refine_record (h : Histogram D) (tallies : List (Tally α)) :
    (record h).refine D tallies = some ((h.refine tallies).result.map record) := by
  by_cases hne : tallies = []
  · rw [hne]
    rfl
  rw [Stored.refine, if_neg (by rwa [List.isEmpty_iff])]
  by_cases hrep : Repeats D tallies
  · obtain ⟨t, _, _, hd⟩ := distinct_of_repeats hrep
    rw [refine_of_distinct_eq_error hne hd, hd]
    rfl
  rw [distinct_eq_ok_iff.2 ⟨rfl, hrep⟩]
  dsimp only
  rw [rangeFault?_record]
  cases hr : h.rangeFault? (sorted D tallies) with
  | some f =>
    rw [refine_of_rangeFault?_eq_some hne hrep hr]
    rfl
  | none =>
    -- The notes fit also where the walk ends with a fault, so that there always is a total to expect.
    have hfit := notesFit_refineBuckets h.valid (ascending_sorted_iff.2 hrep)
    rw [refine_of_rangeFault?_eq_none hne hrep hr]
    dsimp only
    rw [toNat_count_record, record]
    dsimp only
    rw [total, updated?_eq hfit h.valid.total_lt, Option.map_some, bind_build]
    cases (refineBuckets D h.buckets (sorted D tallies)).result with
    | error f => rfl
    | ok bs =>
      change some (((ofBuckets D bs).map record) >>= _) = some ((h.rebuild _ bs).map record)
      rw [rebuild]
      cases ofBuckets D bs with
      | error f => rfl
      | ok made => exact congrArg some (verified_record made _)

/-- **A part is a histogram**: its sum is part of a total of 64 bits. -/
theorem filter_record (h : Histogram D) (p : Bucket α → Bool) :
    (record h).filter p = some (.ok (record (h.filter p))) := by
  have hsum : runningSum 0 (h.buckets.filter p) = .ok (.ofNat (h.filter p).total) :=
    runningSum_of_valid (h.filter p).valid
  rw [Stored.filter, record]
  dsimp only
  rw [hsum]
  rfl

/-! ## Compositions -/

/-- **A way to make a histogram.** -/
inductive Recipe (α : Type) where
  | empty
  | built (buckets : List (Bucket α))
  | quantiles (minimum : α) (rows : List (Quantile α))
  | tallies (tallies : List (Tally α))
  | refined (recipe : Recipe α) (tallies : List (Tally α))
  | exactPart (recipe : Recipe α)
  | rangePart (recipe : Recipe α)

/-- The histogram that a recipe makes. -/
def Recipe.make (D : Domain α) : Recipe α → Except (Fault α) (Histogram D)
  | empty => .ok .empty
  | built bs => ofBuckets D bs
  | quantiles minimum rows => Histogram.ofQuantiles D minimum rows
  | tallies ts => ofTallies D ts
  | refined r ts => do
    let h ← r.make D
    (h.refine ts).result
  | exactPart r => (r.make D).map .exactPart
  | rangePart r => (r.make D).map .rangePart

/-- What is done with a record, once there is one. -/
def andThen {β γ : Type} (made : Option (Except (Fault α) β))
    (next : β → Option (Except (Fault α) γ)) : Option (Except (Fault α) γ) :=
  made.bind fun result =>
    match result with
    | .ok b => next b
    | .error fault => some (.error fault)

/-- **The record that a recipe makes**, none if a count leaves 64 bits on the way. -/
def Recipe.run (D : Domain α) : Recipe α → Option (Except (Fault α) (Stored α))
  | empty => some (.ok .empty)
  | built bs => some (Stored.build D bs)
  | quantiles minimum rows => Stored.ofQuantiles D minimum rows
  | tallies ts => some (Stored.ofTallies D ts)
  | refined r ts => andThen (r.run D) fun s => s.refine D ts
  | exactPart r => andThen (r.run D) fun s => s.filter (Bucket.isExact D)
  | rangePart r => andThen (r.run D) fun s => s.filter fun b => !b.isExact D

theorem andThen_filter (made : Except (Fault α) (Histogram D)) (p : Bucket α → Bool) :
    andThen (some (made.map record)) (fun s => s.filter p) =
      some ((made.map (.filter p)).map record) := by
  cases made with
  | error f => rfl
  | ok h => exact filter_record h p

/-- **Every recipe keeps a histogram**, and no count leaves 64 bits on the way. -/
theorem run_eq (D : Domain α) (r : Recipe α) : r.run D = some ((r.make D).map record) := by
  induction r with
  | empty => rfl
  | built bs => exact congrArg some (build_eq D bs)
  | quantiles minimum rows => exact ofQuantiles_record D minimum rows
  | tallies ts => exact congrArg some (ofTallies_record D ts)
  | refined r ts ih =>
    rw [Recipe.run, Recipe.make, ih]
    cases r.make D with
    | error f => rfl
    | ok h => exact refine_record h ts
  | exactPart r ih =>
    rw [Recipe.run, ih]
    exact andThen_filter (r.make D) _
  | rangePart r ih =>
    rw [Recipe.run, ih]
    exact andThen_filter (r.make D) _

/-- **Whatever is made is sound.** -/
theorem sound_of_run {r : Recipe α} {s : Stored α} (h : r.run D = some (.ok s)) : s.Sound D := by
  rw [run_eq] at h
  cases hmade : r.make D with
  | error f =>
    rw [hmade] at h
    cases h
  | ok made =>
    rw [hmade] at h
    exact sound_iff_exists_record.2 ⟨made, Except.ok.inj (Option.some.inj h)⟩

/-- **Building accepts what is sound**, unchanged, and nothing else. -/
theorem run_built_eq_ok_iff {s : Stored α} :
    (Recipe.built bs).run D = some (.ok s) ↔ s.buckets = bs ∧ s.Sound D := by
  rw [run_eq, Recipe.make, Option.some.injEq]
  constructor
  · intro h
    cases hmade : ofBuckets D bs with
    | error f =>
      rw [hmade] at h
      cases h
    | ok made =>
      rw [hmade] at h
      obtain rfl := Except.ok.inj h
      exact ⟨buckets_of_ofBuckets hmade, sound_iff_exists_record.2 ⟨made, rfl⟩⟩
  · rintro ⟨rfl, hsound⟩
    obtain ⟨made, rfl⟩ := sound_iff_exists_record.1 hsound
    rw [record, ofBuckets_of_valid made.valid]
    rfl

/-- **The invariant of all histograms that can be made.**  Every recipe makes a histogram and keeps it
with its exact total, so that all that is kept is sound.  Building accepts the sound lists, and any
other list it refuses at the first bucket at fault. -/
theorem sound_of_recipe (D : Domain α) :
    (∀ r : Recipe α, r.run D = some ((r.make D).map record)) ∧
    (∀ (r : Recipe α) s, r.run D = some (.ok s) → s.Sound D) ∧
    (∀ bs s, (Recipe.built bs).run D = some (.ok s) ↔ s.buckets = bs ∧ s.Sound D) ∧
    ∀ bs, Verdict D bs ((Recipe.built bs).make D) :=
  ⟨run_eq D, fun _ _ => sound_of_run, fun _ _ => run_built_eq_ok_iff, verdict_ofBuckets D⟩

/-- The range that is left of the letters from `a` to `m` when those that are `a` have been counted. -/
theorem sound_of_recipe_letters :
    let r : Recipe Char := .rangePart (.refined (.quantiles 'a' [⟨'m', 13⟩]) [⟨'a', 3⟩])
    r.run Kind.character.domain = some (.ok ⟨[⟨'b', 'm', 10⟩], 10⟩) ∧
      Stored.Sound Kind.character.domain ⟨[⟨'b', 'm', 10⟩], 10⟩ := by
  intro r
  have hrun : r.run Kind.character.domain = some (.ok ⟨[⟨'b', 'm', 10⟩], 10⟩) := by
    decide +kernel
  exact ⟨hrun, (sound_of_recipe Kind.character.domain).2.1 r _ hrun⟩

end CatalogStats.Histogram
