import CatalogStats.Proofs.Domain.Lattice
import CatalogStats.Proofs.Histogram.Outcome

/-!
# Proofs/Histogram/Runs — pieces that leave no value out

On a lattice a bucket can always be cut, because between two of its values every neighbour exists
(`exists_segments`).  The pieces are a **run**: the first starts where the bucket does, every other
at the number after the end of the one before, and the last ends where the bucket does.
-/

namespace CatalogStats.Histogram

variable {α : Type} {D : Domain α} {on : α → Prop} {L : D.Lattice on} {b p q : Bucket α}
  {start : Option α} {stop v : α} {t : Tally α} {ts : List (Tally α)}
  {pieces : List (Segment α)} {g : List (Bucket α)} {lo hi : Int}

/-! ## Runs -/

/-- **Intervals that run** from one number of a lattice to another, without gap and overlap. -/
def Runs (L : D.Lattice on) (hi : Int) : Int → List (α × α) → Prop
  | lo, [] => lo = hi + 1
  | lo, i :: is => on i.1 ∧ on i.2 ∧ L.index i.1 = lo ∧ lo ≤ L.index i.2 ∧
    Runs L hi (L.index i.2 + 1) is

theorem Runs.le : ∀ {lo : Int} {is : List (α × α)}, Runs L hi lo is → lo ≤ hi + 1
  | _, [], h => Int.le_of_eq h
  | _, _ :: _, ⟨_, _, _, hle, h⟩ => by
    have := h.le
    omega

theorem Runs.on_of_mem : ∀ {lo : Int} {is : List (α × α)}, Runs L hi lo is →
    ∀ i ∈ is, on i.1 ∧ on i.2
  | _, [], _ => nofun
  | _, _ :: _, ⟨hl, hu, _, _, h⟩ => List.forall_mem_cons.2 ⟨⟨hl, hu⟩, h.on_of_mem⟩

/-- **A run contains every value of the lattice between its ends**, and no other. -/
theorem Runs.exists_mem_iff (hv : on v) : ∀ {lo : Int} {is : List (α × α)}, Runs L hi lo is →
    ((∃ i ∈ is, D.le i.1 v = true ∧ D.le v i.2 = true) ↔ lo ≤ L.index v ∧ L.index v ≤ hi)
  | lo, [], h => by
    have hlo : lo = hi + 1 := h
    refine ⟨fun ⟨_, hmem, _⟩ => (nomatch hmem), fun _ => ?_⟩
    omega
  | _, i :: is, ⟨hl, hu, hlo, hle, h⟩ => by
    have hend := h.le
    rw [List.exists_mem_cons_iff, h.exists_mem_iff hv, L.le_iff hl hv, L.le_iff hv hu]
    omega

/-! ## Cutting on a lattice -/

/-- Where the pieces of a bucket start: at a number, or nowhere once its end is passed. -/
def StartsAt (L : D.Lattice on) (start : Option α) (lo hi : Int) : Prop :=
  (∃ l, start = some l ∧ on l ∧ L.index l = lo ∧ lo ≤ hi) ∨ start = none ∧ lo = hi + 1

/-- The start after a counted value is the number after it. -/
theorem startsAt_startAfter (hstop : on stop) (hv : on v) (hle : L.index v ≤ L.index stop) :
    ∃ next, startAfter D v stop = .ok next ∧
      StartsAt L next (L.index v + 1) (L.index stop) := by
  by_cases hsame : L.index v = L.index stop
  · refine ⟨none, ?_, .inr ⟨rfl, by omega⟩⟩
    rw [startAfter, if_pos ((L.same_iff hv hstop).2 hsame)]
  · obtain ⟨c, hc, hon, hidx⟩ := L.exists_next? hv hstop (by omega)
    refine ⟨some c, startAfter_eq_ok_some_iff.2 ⟨?_, hc, ?_⟩, .inl ⟨c, rfl, hon, hidx, by omega⟩⟩
    · exact Bool.eq_false_iff.2 fun h => hsame ((L.same_iff hv hstop).1 h)
    · rw [L.le_iff hon hstop]
      omega

/-- The range before a counted value ends at the number before it, unless it would be empty. -/
theorem exists_rangeBefore {l : α} (hl : on l) (hv : on v) (hle : L.index l ≤ L.index v) :
    ∃ before, rangeBefore D (some l) v = .ok before ∧
      ((L.index l = L.index v ∧ before = []) ∨
        ∃ u, on u ∧ L.index u = L.index v - 1 ∧ L.index l ≤ L.index u ∧
          before = [.range l u]) := by
  by_cases heq : L.index l = L.index v
  · refine ⟨[], ?_, .inl ⟨heq, rfl⟩⟩
    have hlt : ¬ D.lt l v = true := by
      rw [L.lt_iff hl hv]
      omega
    rw [rangeBefore, if_neg hlt]
  · obtain ⟨u, hu, hon, hidx⟩ := L.exists_previous? hv hl (by omega)
    refine ⟨[.range l u], rangeBefore_of_le ?_ hu ?_, .inr ⟨u, hon, hidx, by omega, rfl⟩⟩
    · rw [L.lt_iff hl hv]
      omega
    · rw [L.le_iff hl hon]
      omega

/-- **A bucket can be cut around any values of the lattice inside it**, into pieces that run from
its start to its end. -/
theorem exists_segments (hstop : on stop) (hstart : StartsAt L start lo (L.index stop))
    (ha : Ascending D ts)
    (hts : ∀ t ∈ ts, on t.value ∧ lo ≤ L.index t.value ∧ L.index t.value ≤ L.index stop) :
    ∃ pieces, segments D stop start ts = .ok pieces ∧
      Runs L (L.index stop) lo (pieces.map Segment.bounds) := by
  induction ts generalizing start lo with
  | nil =>
    obtain ⟨l, rfl, hl, rfl, hle⟩ | ⟨rfl, hlo⟩ := hstart
    · exact ⟨[.range l stop], rfl, hl, hstop, rfl, hle, rfl⟩
    · exact ⟨[], rfl, hlo⟩
  | cons t ts ih =>
    obtain ⟨hlt, ha⟩ := List.pairwise_cons.1 ha
    obtain ⟨⟨ht, hlot, hthi⟩, hts⟩ := List.forall_mem_cons.1 hts
    obtain ⟨l, rfl, hl, rfl, _⟩ | ⟨_, hlo⟩ := hstart
    swap
    · omega
    obtain ⟨next, hnext, hstart⟩ := startsAt_startAfter (L := L) hstop ht hthi
    obtain ⟨others, hothers, hruns⟩ := ih hstart ha fun u hu => by
      obtain ⟨hon, _, hle⟩ := hts u hu
      have := (L.lt_iff ht hon).1 (hlt u hu)
      exact ⟨hon, by omega, hle⟩
    obtain ⟨before, hbefore, hcases⟩ := exists_rangeBefore (L := L) hl ht hlot
    refine ⟨before ++ .exact t :: others,
      segments_cons_eq_ok_iff.2 ⟨before, next, others, hbefore, hnext, hothers, rfl⟩, ?_⟩
    obtain ⟨heq, rfl⟩ | ⟨u, hu, hidx, hle, rfl⟩ := hcases
    · exact ⟨ht, ht, heq.symm, Int.le_of_eq heq, hruns⟩
    · have hnext : L.index t.value = L.index u + 1 := by omega
      exact ⟨hl, hu, rfl, hle, ht, ht, hnext, Int.le_of_eq hnext.symm, hruns⟩

/-- …so that the pieces of a bucket are a run. -/
theorem exists_segments_of_bucket (hl : on b.lower) (hu : on b.upper)
    (hle : D.le b.lower b.upper = true) (ha : Ascending D ts)
    (hts : ∀ t ∈ ts, on t.value ∧ b.contains D t.value = true) :
    ∃ pieces, segments D b.upper (some b.lower) ts = .ok pieces ∧
      Runs L (L.index b.upper) (L.index b.lower) (pieces.map Segment.bounds) := by
  refine exists_segments hu (.inl ⟨b.lower, rfl, hl, rfl, (L.le_iff hl hu).1 hle⟩) ha fun t ht => ?_
  obtain ⟨hon, hbt⟩ := hts t ht
  exact ⟨hon, (L.le_iff hl hon).1 (contains_iff.1 hbt).1, (L.le_iff hon hu).1 (contains_iff.1 hbt).2⟩

/-- Buckets that run from the start of a bucket to its end. -/
def RunsOver (L : D.Lattice on) (b : Bucket α) (g : List (Bucket α)) : Prop :=
  Runs L (L.index b.upper) (L.index b.lower) (g.map Bucket.bounds)

/-- **The group of a bucket runs from its start to its end.** -/
theorem runsOver_of_refinesTo (hl : on b.lower) (hu : on b.upper)
    (hle : D.le b.lower b.upper = true) (ha : Ascending D ts) (hts : ∀ t ∈ ts, on t.value)
    (h : RefinesTo D ts b g) : RunsOver L b g := by
  have hmem : ∀ t ∈ talliesIn D b ts, on t.value ∧ b.contains D t.value = true := fun t ht =>
    (mem_talliesIn.1 ht).imp_left (hts t)
  obtain ⟨_, rfl⟩ | ⟨t, ht, hb, _, rfl⟩ | ⟨_, _, hcut⟩ := (refinesTo_iff ha).1 h
  · exact ⟨hl, hu, rfl, (L.le_iff hl hu).1 hle, rfl⟩
  · obtain ⟨hon, hbt⟩ := hmem t (ht ▸ List.mem_singleton_self t)
    have hlow := (L.le_iff hl hon).1 (contains_iff.1 hbt).1
    have hhigh := (L.le_iff hon hu).1 (contains_iff.1 hbt).2
    have heq := (L.same_iff hl hu).1 hb
    have hlower : L.index t.value = L.index b.lower := by omega
    have hupper : L.index t.value + 1 = L.index b.upper + 1 := by omega
    exact ⟨hon, hon, hlower, hlow, hupper⟩
  · obtain ⟨_, _, pieces, hpieces, _, rfl⟩ := cut_eq_ok_iff.1 hcut
    obtain ⟨pieces', hpieces', hruns⟩ :=
      exists_segments_of_bucket (L := L) hl hu hle ha.talliesIn hmem
    obtain rfl := Except.ok.inj (hpieces.symm.trans hpieces')
    rwa [RunsOver, bounds_of_fills (fills_fill _ _)]

end CatalogStats.Histogram
