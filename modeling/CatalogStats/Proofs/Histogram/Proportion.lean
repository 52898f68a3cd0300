import CatalogStats.Proofs.Histogram.Quotas
import CatalogStats.Proofs.Histogram.Success

/-!
# Proofs/Histogram/Proportion — ranges hold their part of what is left over

On a lattice the ranges between counted values hold all values of the bucket but the counted ones
(`sumOf_weights_add`).  Between two whole numbers, dates or characters there are no more than `2 ^ 64`
values, so that the quota of every range is exact when such a bucket is cut (`exact_of_segments`).  The
ranges of a refined histogram therefore hold their part of what the counted values leave over, rounded
down or up (`quota_rule`).
-/

namespace CatalogStats

/-! ## The number of values -/

theorem Numbering.span_le {α : Type} (N : Numbering α) (name : String) (text : α → String)
    (a b : α) : ((N.domain name text).span a b : ℤ) ≤ N.last - N.first + 1 := by
  have ha := N.first_le_index a
  have ha' := N.index_le_last a
  have hb := N.first_le_index b
  have hb' := N.index_le_last b
  change (((N.index a - N.index b).natAbs + 1 : ℕ) : ℤ) ≤ _
  omega

/-- **No more than `2 ^ 64` values** stand between two whole numbers, dates or characters. -/
theorem Kind.span_le {k : Kind} (hdec : ∀ scale, k ≠ .decimal scale) (hstr : k ≠ .string)
    (a b : k.Value) : k.domain.span a b ≤ 18446744073709551616 := by
  cases k with
  | integer => exact Int.ofNat_le.1 (Whole.numbering.span_le _ _ a b)
  | decimal scale => exact absurd rfl (hdec scale)
  | date => exact Int.ofNat_le.1 ((Date.numbering.span_le _ _ a b).trans (by decide))
  | character => exact Int.ofNat_le.1 ((Character.numbering.span_le _ _ a b).trans (by decide))
  | string => exact absurd rfl hstr

namespace Histogram

variable {α : Type} {D : Domain α} {on : α → Prop} {L : D.Lattice on} {b : Bucket α}
  {ts : List (Tally α)} {pieces : List (Segment α)} {shares : List ℕ} {lo hi : Int}

/-- **The spans of a run** count every number between its ends. -/
theorem Runs.sum_spans : ∀ {lo : Int} {is : List (α × α)}, Runs L hi lo is →
    (sumOf (is.map fun i => D.span i.1 i.2) : Int) = hi + 1 - lo
  | lo, [], h => by
    have hlo : lo = hi + 1 := h
    rw [hlo, Int.sub_self]
    rfl
  | _, i :: is, ⟨hl, hu, hlo, hle, h⟩ => by
    have hrest := h.sum_spans
    rw [List.map_cons, sumOf_cons, L.span_eq hl hu]
    omega

/-- The spans of pieces are those of the ranges and those of the counted values. -/
theorem sumOf_spans (D : Domain α) (pieces : List (Segment α)) :
    sumOf (pieces.map fun s => D.span s.lower s.upper) = sumOf (weights D pieces) +
      sumOf ((counted pieces).map fun t => D.span t.value t.value) := by
  induction pieces with
  | nil => rfl
  | cons s pieces ih =>
    cases s with
    | exact t =>
      rw [List.map_cons, sumOf_cons, ih, counted_cons_exact, List.map_cons, sumOf_cons, weights]
      exact Nat.add_left_comm _ _ _
    | range l u =>
      rw [List.map_cons, sumOf_cons, ih, counted_cons_range, weights, sumOf_cons, Nat.add_assoc]
      rfl

/-- **The ranges hold all values of the bucket but the counted ones.** -/
theorem sumOf_weights_add (L : D.Lattice on) (hl : on b.lower) (hu : on b.upper)
    (hle : D.le b.lower b.upper = true) (ha : Ascending D ts)
    (hts : ∀ t ∈ ts, on t.value ∧ b.contains D t.value = true)
    (h : segments D b.upper (some b.lower) ts = .ok pieces) :
    sumOf (weights D pieces) + ts.length = b.span D := by
  obtain ⟨pieces', hpieces, hruns⟩ := exists_segments_of_bucket (L := L) hl hu hle ha hts
  obtain rfl := Except.ok.inj (h.symm.trans hpieces)
  have hidx := (L.le_iff hl hu).1 hle
  have hspans := hruns.sum_spans
  have hone : ∀ t ∈ ts, D.span t.value t.value = 1 := by
    intro t ht
    rw [L.span_eq (hts t ht).1 (hts t ht).1, Int.sub_self]
    rfl
  have hcounted : sumOf ((counted pieces).map fun t => D.span t.value t.value) = ts.length := by
    rw [counted_segments h, List.map_congr_left hone, List.map_const', sumOf_eq_sum,
      List.sum_replicate_nat, Nat.mul_one]
  have hspan : b.span D = (L.index b.lower - L.index b.upper).natAbs + 1 := L.span_eq hl hu
  rw [List.map_map] at hspans
  have hsum := sumOf_spans D pieces
  rw [hcounted] at hsum
  change (sumOf (pieces.map fun s => D.span s.lower s.upper) : Int) = _ at hspans
  omega

/-! ## Cutting in proportion -/

/-- A bucket takes the place of a piece: that of a range has a frequency related to its span. -/
inductive FillsBy (D : Domain α) (R : ℕ → ℕ → Prop) : Segment α → Bucket α → Prop
  | range (l u : α) (n : ℕ) (h : R (D.span l u) n) : FillsBy D R (.range l u) ⟨l, u, n⟩
  | exact (t : Tally α) : FillsBy D R (.exact t) (.single t.value t.count.toNat)

theorem fillsBy_fill {R : ℕ → ℕ → Prop} (h : List.Forall₂ R (weights D pieces) shares) :
    List.Forall₂ (FillsBy D R) pieces (fill pieces shares) := by
  induction pieces generalizing shares with
  | nil => exact .nil
  | cons s pieces ih =>
    cases s with
    | exact t => exact .cons (.exact t) (ih h)
    | range l u =>
      cases h with
      | cons hn h => exact .cons (.range l u _ hn) (ih h)

/-- **A bucket that is cut in proportion**, around counted values inside it.  Its frequency less their
counts is what the ranges between them share, by the number of values in each. -/
structure CutInProportion (D : Domain α) (ts : List (Tally α)) (b : Bucket α)
    (g : List (Bucket α)) (pieces : List (Segment α)) : Prop where
  segments_eq : segments D b.upper (some b.lower) ts = .ok pieces
  span_eq : sumOf (weights D pieces) + ts.length = b.span D
  exact : weights D pieces ≠ [] → Allotment.Exact (b.frequency - countOf ts) (weights D pieces)
  fills : List.Forall₂ (FillsBy D (Allotment.FollowsQuota (b.frequency - countOf ts)
    (sumOf (weights D pieces)))) pieces g

section Kind

variable {k : Kind} (hdec : ∀ scale, k ≠ .decimal scale) (hstr : k ≠ .string)
  {b : Bucket k.Value} {ts : List (Tally k.Value)} {pieces : List (Segment k.Value)}
  {g : List (Bucket k.Value)}
include hdec hstr

/-- **No quota of a cut is computed in double precision.** -/
theorem exact_of_segments (hb : k.domain.le b.lower b.upper = true)
    (hlt : b.frequency < 18446744073709551616) (ha : Ascending k.domain ts)
    (hts : ∀ t ∈ ts, b.contains k.domain t.value = true)
    (h : segments k.domain b.upper (some b.lower) ts = .ok pieces)
    (hne : weights k.domain pieces ≠ []) :
    Allotment.Exact (b.frequency - countOf ts) (weights k.domain pieces) := by
  have hon : ∀ v, k.OnGrid v := Kind.onGrid hdec
  have hsum := sumOf_weights_add (k.lattice hstr) (hon _) (hon _) hb ha
    (fun t ht => ⟨hon _, hts t ht⟩) h
  have hspan : b.span k.domain ≤ 18446744073709551616 := Kind.span_le hdec hstr _ _
  refine ⟨?_, by omega, fun w hw => ?_⟩
  · obtain ⟨w, hw⟩ := List.exists_mem_of_ne_nil _ hne
    obtain ⟨l, u, _, rfl⟩ := mem_weights hw
    exact (k.span_pos l u).trans_le (le_sumOf hw)
  · have hw := le_sumOf hw
    calc (b.frequency - countOf ts) * w
        ≤ 18446744073709551615 * 18446744073709551616 := Nat.mul_le_mul (by omega) (by omega)
      _ < 340282366920938463463374607431768211456 := by decide

/-- **A bucket is cut in proportion.** -/
theorem cutInProportion_of_cut (hb : k.domain.le b.lower b.upper = true)
    (hlt : b.frequency < 18446744073709551616) (ha : Ascending k.domain ts)
    (hts : ∀ t ∈ ts, b.contains k.domain t.value = true) (h : cut k.domain b ts = .ok g) :
    ∃ pieces, CutInProportion k.domain ts b g pieces := by
  have hon : ∀ v, k.OnGrid v := Kind.onGrid hdec
  obtain ⟨_, _, pieces, hpieces, _, rfl⟩ := cut_eq_ok_iff.1 h
  have hexact := exact_of_segments hdec hstr hb hlt ha hts hpieces
  refine ⟨pieces, hpieces, sumOf_weights_add (k.lattice hstr) (hon _) (hon _) hb ha
    (fun t ht => ⟨hon _, hts t ht⟩) hpieces, hexact, fillsBy_fill ?_⟩
  by_cases hne : weights k.domain pieces = []
  · rw [hne]
    exact .nil
  · exact (hexact hne).followsQuota

end Kind

/-! ## The main fact -/

/-- **The quota rule**: where the quotas are exact every share is its quota rounded down, or up if
there is something to round.  They are exact for every cut of a bucket of whole numbers, dates or
characters, so that in a refined histogram every range of such a bucket holds its part of the
frequency that the counted values leave over. -/
theorem quota_rule :
    (∀ total weights, Allotment.Exact total weights →
      List.Forall₂ (Allotment.FollowsQuota total (sumOf weights)) weights
        (Allotment.shares total weights)) ∧
    ∀ k : Kind, (∀ scale, k ≠ .decimal scale) → k ≠ .string →
      (∀ (b : Bucket k.Value) (ts : List (Tally k.Value)) (pieces : List (Segment k.Value)),
        k.domain.le b.lower b.upper = true → b.frequency < 18446744073709551616 →
        Ascending k.domain ts → (∀ t ∈ ts, b.contains k.domain t.value = true) →
        segments k.domain b.upper (some b.lower) ts = .ok pieces → weights k.domain pieces ≠ [] →
        Allotment.Exact (b.frequency - countOf ts) (weights k.domain pieces)) ∧
      ∀ (h s : Histogram k.domain) (tallies : List (Tally k.Value)),
        (h.refine tallies).result = .ok s →
        ∃ groups, s.buckets = groups.flatten ∧ List.Forall₂ (fun b g =>
          Replaces k.domain tallies b g ∧
          (b.isExact k.domain = false → talliesIn k.domain b tallies ≠ [] → ∃ pieces,
            CutInProportion k.domain (talliesIn k.domain b (sorted k.domain tallies)) b g pieces))
          h.buckets groups := by
  refine ⟨fun _ _ h => h.followsQuota, fun k hdec hstr => ⟨fun b ts pieces hb hlt ha hts h hne =>
    exact_of_segments hdec hstr hb hlt ha hts h hne, fun h s tallies hs => ?_⟩⟩
  obtain ⟨hrep, _, groups, hg, hbuckets⟩ := (refine_eq_ok_iff k.span_pos).1 hs
  have ha : Ascending k.domain (sorted k.domain tallies) := ascending_sorted_iff.2 hrep
  have hp : (sorted k.domain tallies).Perm tallies := sorted_perm tallies
  refine ⟨groups, hbuckets, Forall₂.imp_mem hg fun b hb g _ hbg =>
    ⟨replaces_of_refinesTo (Kind.strict hdec) k.span_pos (h.valid.bounds b hb) hp ha hbg,
      fun hrange hne => ?_⟩⟩
  have hlt := (Bucket.frequency_le_total hb).trans_lt h.valid.total_lt
  obtain ⟨hnil, _⟩ | ⟨t, _, hexact, _⟩ | ⟨_, _, hcut⟩ := (refinesTo_iff ha).1 hbg
  · exact absurd ((eq_nil_iff_of_perm (talliesIn_perm hp)).1 hnil) hne
  · cases hexact.symm.trans hrange
  · exact cutInProportion_of_cut hdec hstr (h.valid.bounds b hb) hlt ha.talliesIn
      (fun t ht => (mem_talliesIn.1 ht).2) hcut

/-- Seven letters cut around the second: the first takes a sixth of what is left over. -/
theorem quota_rule_letters : ∃ h s : Histogram Kind.character.domain,
    h.buckets = [⟨'d', 'j', 100⟩] ∧ (h.refine [⟨'e', 10⟩]).result = .ok s ∧
    s.buckets = [⟨'d', 'd', 15⟩, ⟨'e', 'e', 10⟩, ⟨'f', 'j', 75⟩] := by
  let h : Histogram Kind.character.domain := ⟨[⟨'d', 'j', 100⟩], by decide, by decide, by decide⟩
  have hin : (⟨'d', 'j', 100⟩ : Bucket Char).contains Kind.character.domain 'e' = true := by decide
  obtain ⟨s, hs⟩ : ∃ s, (h.refine [⟨'e', 10⟩]).result = .ok s := by
    refine (exists_refine_eq_ok_iff_fits (Kind.strict (k := .character) nofun) Kind.character.span_pos
      (Kind.character.lattice nofun) (fun _ => trivial)
      fun hrep => hrep (List.pairwise_singleton _ _)).2 ⟨?_, ?_⟩
    · exact List.forall_mem_singleton.2 ⟨_, List.mem_singleton_self _, hin⟩
    · refine List.forall_mem_singleton.2 fun _ => ⟨by decide, fun _ hall => ?_⟩
      obtain ⟨t, ht, hsame⟩ := hall 'd' (by decide)
      rw [List.mem_singleton.1 ht] at hsame
      cases hsame
  obtain ⟨groups, hbuckets, hgroups⟩ := (quota_rule.2 .character nofun nofun).2 h s [⟨'e', 10⟩] hs
  cases hgroups with | cons hg hnil =>
  cases hnil
  obtain ⟨pieces, hcut⟩ := hg.2 (by decide) (by decide)
  have hsorted : sorted Kind.character.domain [⟨'e', 10⟩] = [⟨'e', 10⟩] :=
    List.mergeSort_singleton _
  rw [hsorted] at hcut
  obtain rfl : [.range 'd' 'd', .exact ⟨'e', 10⟩, .range 'f' 'j'] = pieces :=
    Except.ok.inj ((by decide : _ = _).trans hcut.segments_eq)
  have hquota : ∀ {w n}, Allotment.FollowsQuota 90 6 w n → 6 ∣ 90 * w → n = 90 * w / 6 :=
    fun hn hdvd => hn.floor_or_succ.resolve_right fun hsucc => hsucc.2 hdvd
  cases hcut.fills with | cons hd hfills =>
  cases hfills with | cons he hfills =>
  cases hfills with | cons hf hfills =>
  cases hfills
  cases hd with | range _ _ n hn =>
  cases he with | exact _ =>
  cases hf with | range _ _ m hm =>
  obtain rfl : n = 15 := hquota (w := 1) hn (by decide)
  obtain rfl : m = 75 := hquota (w := 5) hm (by decide)
  exact ⟨h, s, rfl, hs, hbuckets⟩

end Histogram

end CatalogStats
