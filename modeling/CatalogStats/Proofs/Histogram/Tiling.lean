import CatalogStats.Proofs.Domain.Steps
import CatalogStats.Proofs.Histogram.Runs
import Mathlib.Data.List.Chain

/-!
# Proofs/Histogram/Tiling — refining neither adds nor drops a value

The group of a bucket **tiles** it: each of its buckets starts at the value after the end of the one
before.  A refined histogram therefore covers the values of the lattice that the histogram covered,
and has its range and its gaps (`tiles_of_refine`).
-/

namespace CatalogStats.Histogram

variable {α : Type} {D : Domain α} {on : α → Prop} {L : D.Lattice on} {h s : Histogram D}
  {b p q : Bucket α} {v : α} {bs g : List (Bucket α)} {groups : List (List (Bucket α))} {lo hi : Int}

/-! ## Buckets without a gap -/

/-- A bucket starts at the value after the end of another. -/
def Follows (D : Domain α) (p q : Bucket α) : Prop :=
  ∃ v, D.next? p.upper = some v ∧ D.same v q.lower = true

/-- Every bucket follows the one before it. -/
def Gapless (D : Domain α) (bs : List (Bucket α)) : Prop := bs.IsChain (Follows D)

/-- **Buckets that tile a bucket**: from its start to its end, without a gap. -/
structure Tiles (D : Domain α) (b : Bucket α) (g : List (Bucket α)) : Prop where
  first : ∃ p, g.head? = some p ∧ D.same p.lower b.lower = true
  last : ∃ p, g.getLast? = some p ∧ D.same p.upper b.upper = true
  gapless : Gapless D g

/-- Of two buckets in order, the second follows the first when it starts at the next number. -/
theorem follows_iff (L : D.Lattice on) (hp : on p.upper) (hq : on q.lower)
    (hlt : L.index p.upper < L.index q.lower) :
    Follows D p q ↔ L.index q.lower = L.index p.upper + 1 := by
  obtain ⟨c, hc, hon, hidx⟩ := L.exists_next? hp hq hlt
  rw [Follows, hc]
  simp only [Option.some.injEq, exists_eq_left', L.same_iff hon hq]
  omega

/-! ## A run as a tiling -/

/-- The buckets of a run, as intervals. -/
abbrev RunsTo (L : D.Lattice on) (lo hi : Int) (g : List (Bucket α)) : Prop :=
  Runs L hi lo (g.map Bucket.bounds)

theorem runsTo_cons_iff : RunsTo L lo hi (p :: g) ↔ on p.lower ∧ on p.upper ∧
    L.index p.lower = lo ∧ lo ≤ L.index p.upper ∧ RunsTo L (L.index p.upper + 1) hi g := Iff.rfl

theorem RunsTo.gapless : ∀ {lo : Int} {g : List (Bucket α)}, RunsTo L lo hi g → Gapless D g
  | _, [], _ => .nil
  | _, [_], _ => .singleton _
  | _, p :: q :: g, h => by
    obtain ⟨_, hp, _, _, h⟩ := runsTo_cons_iff.1 h
    obtain ⟨hq, _, hidx, _, _⟩ := runsTo_cons_iff.1 h
    exact .cons_cons ((follows_iff L hp hq (by omega)).2 hidx) (RunsTo.gapless h)

theorem RunsTo.exists_head? (hle : lo ≤ hi) (h : RunsTo L lo hi g) :
    ∃ p, g.head? = some p ∧ on p.lower ∧ L.index p.lower = lo := by
  cases g with
  | nil =>
    have hlo : lo = hi + 1 := h
    omega
  | cons p g => exact ⟨p, rfl, h.1, h.2.2.1⟩

theorem RunsTo.exists_getLast? : ∀ {lo : Int} {g : List (Bucket α)}, lo ≤ hi → RunsTo L lo hi g →
    ∃ p, g.getLast? = some p ∧ on p.upper ∧ L.index p.upper = hi
  | lo, [], hle, h => by
    have hlo : lo = hi + 1 := h
    omega
  | _, [p], _, ⟨_, hp, _, _, h⟩ => by
    have hidx : L.index p.upper + 1 = hi + 1 := h
    exact ⟨p, rfl, hp, by omega⟩
  | _, p :: q :: g, _, ⟨_, _, _, _, h⟩ => by
    obtain ⟨_, _, _, hq, hrest⟩ := runsTo_cons_iff.1 h
    have hend := Runs.le hrest
    rw [List.getLast?_cons_cons]
    exact RunsTo.exists_getLast? (by omega) h

/-- **A run from the start of a bucket to its end tiles it.** -/
theorem RunsOver.tiles (hl : on b.lower) (hu : on b.upper) (hle : D.le b.lower b.upper = true)
    (h : RunsOver L b g) : Tiles D b g := by
  have hidx := (L.le_iff hl hu).1 hle
  obtain ⟨p, hp, hon, hlower⟩ := RunsTo.exists_head? hidx h
  obtain ⟨q, hq, hon', hupper⟩ := RunsTo.exists_getLast? hidx h
  exact ⟨⟨p, hp, (L.same_iff hon hl).2 hlower⟩, ⟨q, hq, (L.same_iff hon' hu).2 hupper⟩,
    RunsTo.gapless h⟩

/-- …and contains the same values of the lattice. -/
theorem RunsOver.covers_iff (hl : on b.lower) (hu : on b.upper) (hv : on v)
    (h : RunsOver L b g) : Covers D g v ↔ b.contains D v = true := by
  rw [contains_iff, L.le_iff hl hv, L.le_iff hv hu, ← Runs.exists_mem_iff hv h, Covers]
  simp only [List.mem_map, exists_exists_and_eq_and, contains_iff, Bucket.bounds]

/-! ## Groups of runs

On a lattice every group is a run, so that the values, the range and the gaps of the groups can be
read off the buckets they stand for. -/

/-- Bounds on a lattice. -/
def OnLattice (on : α → Prop) (bs : List (Bucket α)) : Prop := ∀ b ∈ bs, on b.lower ∧ on b.upper

theorem onLattice_flatten (hg : List.Forall₂ (RunsOver L) bs groups) :
    OnLattice on groups.flatten := by
  intro p hp
  obtain ⟨g, hgm, hpg⟩ := List.mem_flatten.1 hp
  obtain ⟨b, _, hruns⟩ := exists_left_of_forall₂ hg hgm
  exact Runs.on_of_mem hruns _ (List.mem_map_of_mem hpg)

/-- **The groups cover the values of the lattice that the buckets cover.** -/
theorem covers_flatten_iff (hbs : OnLattice on bs) (hg : List.Forall₂ (RunsOver L) bs groups)
    (hv : on v) : Covers D groups.flatten v ↔ Covers D bs v := by
  constructor
  · rintro ⟨p, hp, hpv⟩
    obtain ⟨g, hgm, hpg⟩ := List.mem_flatten.1 hp
    obtain ⟨b, hb, hruns⟩ := exists_left_of_forall₂ hg hgm
    exact ⟨b, hb, (hruns.covers_iff (hbs b hb).1 (hbs b hb).2 hv).1 ⟨p, hpg, hpv⟩⟩
  · rintro ⟨b, hb, hbv⟩
    obtain ⟨g, hgm, hruns⟩ := exists_right_of_forall₂ hg hb
    obtain ⟨p, hpg, hpv⟩ := (hruns.covers_iff (hbs b hb).1 (hbs b hb).2 hv).2 hbv
    exact ⟨p, List.mem_flatten.2 ⟨g, hgm, hpg⟩, hpv⟩

theorem on_of_min? (hh : OnLattice on h.buckets) {m : α} (hm : h.min? = some m) : on m := by
  obtain ⟨⟨b, hb, rfl⟩, _⟩ := min?_spec hm
  exact (hh b hb).1

theorem on_of_max? (hh : OnLattice on h.buckets) {m : α} (hm : h.max? = some m) : on m := by
  obtain ⟨⟨b, hb, rfl⟩, _⟩ := max?_spec hm
  exact (hh b hb).2

section Range

variable (hs : OnLattice on s.buckets)
  (hcov : ∀ v, on v → Covers D s.buckets v → Covers D h.buckets v)
include hs hcov

theorem buckets_ne_nil_of_covers (hne : s.buckets ≠ []) : h.buckets ≠ [] := by
  obtain ⟨p, hp⟩ := List.exists_mem_of_ne_nil _ hne
  have hpv := contains_iff.2 ⟨Domain.le_refl, s.valid.bounds p hp⟩
  obtain ⟨b, hb, _⟩ := hcov p.lower (hs p hp).1 ⟨p, hp, hpv⟩
  exact List.ne_nil_of_mem hb

theorem min?_le_of_covers {m m' : α} (hm : s.min? = some m) (hm' : h.min? = some m') :
    D.le m' m = true := by
  obtain ⟨⟨p, hp, rfl⟩, _⟩ := min?_spec hm
  have hpv := contains_iff.2 ⟨Domain.le_refl, s.valid.bounds p hp⟩
  obtain ⟨b, hb, hbv⟩ := hcov p.lower (hs p hp).1 ⟨p, hp, hpv⟩
  exact Domain.le_trans ((min?_spec hm').2 b hb) (contains_iff.1 hbv).1

theorem le_max?_of_covers {m m' : α} (hm : s.max? = some m) (hm' : h.max? = some m') :
    D.le m m' = true := by
  obtain ⟨⟨p, hp, rfl⟩, _⟩ := max?_spec hm
  have hpv := contains_iff.2 ⟨s.valid.bounds p hp, Domain.le_refl⟩
  obtain ⟨b, hb, hbv⟩ := hcov p.upper (hs p hp).2 ⟨p, hp, hpv⟩
  exact Domain.le_trans (contains_iff.1 hbv).2 ((max?_spec hm').2 b hb)

end Range

section Same

variable (hs : OnLattice on s.buckets) (hh : OnLattice on h.buckets)
  (hcov : ∀ v, on v → (Covers D s.buckets v ↔ Covers D h.buckets v))
include hs hh hcov

theorem buckets_eq_nil_iff_of_covers : s.buckets = [] ↔ h.buckets = [] := by
  rw [← not_iff_not]
  constructor
  · exact buckets_ne_nil_of_covers hs fun v hv => (hcov v hv).1
  · exact buckets_ne_nil_of_covers hh fun v hv => (hcov v hv).2

/-- **Histograms that cover the same values of the lattice start at the same value.** -/
theorem same_min?_of_covers : Option.Rel (fun m m' => D.same m m' = true) s.min? h.min? := by
  have hnone := buckets_eq_nil_iff_of_covers hs hh hcov
  rw [← min?_eq_none_iff, ← min?_eq_none_iff] at hnone
  cases hm : s.min? with
  | none =>
    rw [hnone.1 hm]
    exact .none
  | some m =>
    cases hm' : h.min? with
    | none => cases hm.symm.trans (hnone.2 hm')
    | some m' =>
      refine .some (Domain.same_iff_le.2 ⟨?_, ?_⟩)
      · exact min?_le_of_covers hh (fun v hv => (hcov v hv).2) hm' hm
      · exact min?_le_of_covers hs (fun v hv => (hcov v hv).1) hm hm'

/-- …and end at the same value. -/
theorem same_max?_of_covers : Option.Rel (fun m m' => D.same m m' = true) s.max? h.max? := by
  have hnone := buckets_eq_nil_iff_of_covers hs hh hcov
  rw [← max?_eq_none_iff, ← max?_eq_none_iff] at hnone
  cases hm : s.max? with
  | none =>
    rw [hnone.1 hm]
    exact .none
  | some m =>
    cases hm' : h.max? with
    | none => cases hm.symm.trans (hnone.2 hm')
    | some m' =>
      refine .some (Domain.same_iff_le.2 ⟨?_, ?_⟩)
      · exact le_max?_of_covers hs (fun v hv => (hcov v hv).1) hm hm'
      · exact le_max?_of_covers hh (fun v hv => (hcov v hv).2) hm' hm

/-- …so that they have as many values in between. -/
theorem cardinality_eq_of_covers (L : D.Lattice on) : s.cardinality = h.cardinality := by
  have hmin := same_min?_of_covers hs hh hcov
  have hmax := same_max?_of_covers hs hh hcov
  have hmin_s := fun m => on_of_min? hs (m := m)
  have hmin_h := fun m => on_of_min? hh (m := m)
  have hmax_s := fun m => on_of_max? hs (m := m)
  have hmax_h := fun m => on_of_max? hh (m := m)
  unfold cardinality
  generalize s.min? = m at *
  generalize h.min? = m' at *
  generalize s.max? = n at *
  generalize h.max? = n' at *
  cases hmin with
  | none => rfl
  | @some m m' hm =>
    cases hmax with
    | none => rfl
    | @some n n' hn =>
      have honm := hmin_s m rfl
      have honm' := hmin_h m' rfl
      have honn := hmax_s n rfl
      have honn' := hmax_h n' rfl
      have hidx := (L.same_iff honm honm').1 hm
      have hidx' := (L.same_iff honn honn').1 hn
      change D.span m n = D.span m' n'
      rw [L.span_eq honm honn, L.span_eq honm' honn', hidx, hidx']

end Same

/-! ## Gaps -/

theorem RunsOver.ne_nil (hb : on b.lower ∧ on b.upper) (hle : D.le b.lower b.upper = true)
    (h : RunsOver L b g) : g ≠ [] := by
  obtain ⟨p, hp, _⟩ := RunsTo.exists_head? ((L.le_iff hb.1 hb.2).1 hle) h
  rintro rfl
  cases hp

/-- Two groups follow each other where their buckets do. -/
theorem follows_groups_iff {c : Bucket α} {g' : List (Bucket α)} (hb : on b.lower ∧ on b.upper)
    (hc : on c.lower ∧ on c.upper) (hble : D.le b.lower b.upper = true)
    (hcle : D.le c.lower c.upper = true) (hlt : D.lt b.upper c.lower = true)
    (hg : RunsOver L b g) (hg' : RunsOver L c g') :
    (∀ p ∈ g.getLast?, ∀ q ∈ g'.head?, Follows D p q) ↔ Follows D b c := by
  obtain ⟨p, hp, honp, hidxp⟩ := RunsTo.exists_getLast? ((L.le_iff hb.1 hb.2).1 hble) hg
  obtain ⟨q, hq, honq, hidxq⟩ := RunsTo.exists_head? ((L.le_iff hc.1 hc.2).1 hcle) hg'
  have hidx := (L.lt_iff hb.2 hc.1).1 hlt
  rw [hp, hq]
  simp only [Option.mem_some_iff, forall_eq']
  rw [follows_iff L honp honq (by omega), follows_iff L hb.2 hc.1 hidx, hidxp, hidxq]

/-- **The groups leave no gap** exactly when the buckets leave none. -/
theorem gapless_flatten_iff (hv : Valid D bs) (hbs : OnLattice on bs)
    (hg : List.Forall₂ (RunsOver L) bs groups) : Gapless D groups.flatten ↔ Gapless D bs := by
  have hne : [] ∉ groups := by
    intro hmem
    obtain ⟨b, hb, hruns⟩ := exists_left_of_forall₂ hg hmem
    exact hruns.ne_nil (hbs b hb) (hv.bounds b hb) rfl
  have hgapless : ∀ g ∈ groups, g.IsChain (Follows D) := by
    intro g hgm
    obtain ⟨b, _, hruns⟩ := exists_left_of_forall₂ hg hgm
    exact RunsTo.gapless hruns
  rw [Gapless, List.isChain_flatten hne, and_iff_right hgapless, Gapless]
  clear hne hgapless
  induction hg with
  | nil => exact iff_of_true .nil .nil
  | cons hg hrest ih =>
    obtain ⟨hb, hbs⟩ := List.forall_mem_cons.1 hbs
    have ih := ih hv.tail hbs
    cases hrest with
    | nil => exact iff_of_true (.singleton _) (.singleton _)
    | cons hg' hrest =>
      have hc := (List.forall_mem_cons.1 hbs).1
      have hfollows := follows_groups_iff hb hc (hv.bounds _ List.mem_cons_self)
        (hv.tail.bounds _ List.mem_cons_self) (hv.lt_of_mem List.mem_cons_self) hg hg'
      rw [List.isChain_cons_cons, List.isChain_cons_cons]
      exact and_congr hfollows ih

/-! ## The refined histogram -/

/-- **Refining tiles every bucket**: between the values of a lattice the refined histogram covers what
the histogram covered, each value once, and has its minimum, maximum, cardinality and gaps. -/
theorem tiles_of_refine {k : Kind} (hk : k ≠ .string) {h s : Histogram k.domain}
    {tallies : List (Tally k.Value)} (hh : OnLattice k.OnGrid h.buckets)
    (hts : ∀ t ∈ tallies, k.OnGrid t.value) (hs : (h.refine tallies).result = .ok s) :
    (∀ v, k.OnGrid v → (Covers k.domain s.buckets v ↔ Covers k.domain h.buckets v) ∧
      (Covers k.domain h.buckets v → s.buckets.countP (fun p => p.contains k.domain v) = 1)) ∧
    (∃ groups, s.buckets = groups.flatten ∧ List.Forall₂ (Tiles k.domain) h.buckets groups) ∧
    Option.Rel (fun m m' => k.domain.same m m' = true) s.min? h.min? ∧
    Option.Rel (fun m m' => k.domain.same m m' = true) s.max? h.max? ∧
    s.cardinality = h.cardinality ∧ (Gapless k.domain s.buckets ↔ Gapless k.domain h.buckets) := by
  obtain ⟨hrep, _, groups, hg, hbuckets⟩ := (refine_eq_ok_iff k.span_pos).1 hs
  have ha : Ascending k.domain (sorted k.domain tallies) := ascending_sorted_iff.2 hrep
  have hruns : List.Forall₂ (RunsOver (k.lattice hk)) h.buckets groups :=
    Forall₂.imp_mem hg fun b hb g _ hbg => runsOver_of_refinesTo (hh b hb).1 (hh b hb).2
      (h.valid.bounds b hb) ha (fun t ht => hts t (mem_sorted.1 ht)) hbg
  have htiles : List.Forall₂ (Tiles k.domain) h.buckets groups :=
    Forall₂.imp_mem hruns fun b hb g _ hbg =>
      hbg.tiles (hh b hb).1 (hh b hb).2 (h.valid.bounds b hb)
  have hon : OnLattice k.OnGrid s.buckets := hbuckets ▸ onLattice_flatten hruns
  have hcov : ∀ v, k.OnGrid v → (Covers k.domain s.buckets v ↔ Covers k.domain h.buckets v) :=
    fun v hv => hbuckets ▸ covers_flatten_iff hh hruns hv
  refine ⟨?_, ⟨groups, hbuckets, htiles⟩, same_min?_of_covers hon hh hcov,
    same_max?_of_covers hon hh hcov, cardinality_eq_of_covers hon hh hcov (k.lattice hk), ?_⟩
  · intro v hv
    refine ⟨hcov v hv, ?_⟩
    intro hcv
    have hpos : 0 < s.buckets.countP fun p => p.contains k.domain v :=
      List.countP_pos_iff.2 ((hcov v hv).2 hcv)
    exact Nat.le_antisymm (s.valid.countP_contains_le_one v) hpos
  · rw [hbuckets]
    exact gapless_flatten_iff h.valid hh hruns

/-- Two decimal buckets with a gap between them, the second cut at its start. -/
theorem tiles_of_refine_tenths : ∃ h s : Histogram (Kind.decimal 1).domain,
    let tenths (n : Fin 100) : Decimal := ⟨false, n, 1, by omega, by decide⟩
    h.buckets = [⟨tenths 3, tenths 5, 7⟩, ⟨tenths 10, tenths 15, 20⟩] ∧
    (h.refine [⟨tenths 10, 4⟩]).result = .ok s ∧
    s.buckets = [⟨tenths 3, tenths 5, 7⟩, ⟨tenths 10, tenths 10, 4⟩, ⟨tenths 11, tenths 15, 16⟩] ∧
    s.cardinality = 13 ∧ h.cardinality = s.cardinality ∧
    (Gapless (Kind.decimal 1).domain s.buckets ↔ Gapless (Kind.decimal 1).domain h.buckets) := by
  let tenths (n : Fin 100) : Decimal := ⟨false, n, 1, by omega, by decide⟩
  let h : Histogram (Kind.decimal 1).domain :=
    ⟨[⟨tenths 3, tenths 5, 7⟩, ⟨tenths 10, tenths 15, 20⟩], by decide, by decide, by decide⟩
  have heval : ((h.refine [⟨tenths 10, 4⟩]).result.toOption.map buckets) =
      some [⟨tenths 3, tenths 5, 7⟩, ⟨tenths 10, tenths 10, 4⟩, ⟨tenths 11, tenths 15, 16⟩] := by
    decide +kernel
  obtain ⟨s, hs, hbuckets⟩ := exists_eq_ok heval
  have hgrid : OnLattice (Kind.decimal 1).OnGrid h.buckets := by
    rintro b (_ | ⟨_, _ | ⟨_, ⟨⟩⟩⟩) <;> exact ⟨rfl, rfl⟩
  have hkeys : ∀ t ∈ [(⟨tenths 10, 4⟩ : Tally Decimal)], (Kind.decimal 1).OnGrid t.value :=
    List.forall_mem_singleton.2 rfl
  obtain ⟨_, _, _, _, hcard, hgap⟩ := tiles_of_refine (k := .decimal 1) nofun hgrid hkeys hs
  exact ⟨h, s, rfl, hs, hbuckets, hcard.trans (by decide +kernel), hcard.symm, hgap⟩

end CatalogStats.Histogram
