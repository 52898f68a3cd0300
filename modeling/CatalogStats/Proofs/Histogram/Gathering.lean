import CatalogStats.Histogram.Quantiles
import CatalogStats.Proofs.Domain.Steps
import CatalogStats.Proofs.Histogram.Acceptance
import CatalogStats.Proofs.Histogram.Cutting

/-!
# Proofs/Histogram/Gathering — buckets gathered from quantiles

The walk along the quantiles carries the bucket that ends at the last one.  At each quantile it is
refused, the bucket is extended to it, or the bucket is closed and another opened
(`bucketsAfter_cons_cases`).  The walks that end are the relation `Gathered`
(`bucketsAfter_eq_ok_iff`); what one step preserves, `UnderWay`, makes the gathered buckets a
histogram, so that only a quantile can be refused (`fault_of_ofQuantiles`).
-/

namespace CatalogStats.Histogram

variable {α : Type} {D : Domain α} {last b : Bucket α} {bs : List (Bucket α)} {p q : Quantile α}
  {qs rows : List (Quantile α)} {index n : ℕ} {f : Fault α} {h : Histogram D} {v minimum : α}

/-! ## One quantile -/

/-- A quantile above another, with no fewer rows. -/
structure Rises (D : Domain α) (p q : Quantile α) : Prop where
  lt : D.lt p.boundary q.boundary = true
  le : p.cumulative.toNat ≤ q.cumulative.toNat

/-- **Nothing is left between two quantiles**: the value after the boundary of the first stands
above the boundary of the second. -/
def absorbs (D : Domain α) (p q : Quantile α) : Bool :=
  (D.next? p.boundary).any fun v => D.lt q.boundary v

/-- The number of rows between two quantiles. -/
def rowsBetween (p q : Quantile α) : ℕ := q.cumulative.toNat - p.cumulative.toNat

/-- A bucket that ends at a quantile, extended to the next one. -/
def extended (last : Bucket α) (p q : Quantile α) : Bucket α :=
  ⟨last.lower, q.boundary, last.frequency + rowsBetween p q⟩

/-- The bucket that is opened between two quantiles. -/
def opened (v : α) (p q : Quantile α) : Bucket α := ⟨v, q.boundary, rowsBetween p q⟩

/-- **Why a quantile is refused** after another. -/
inductive Refused (D : Domain α) (index : ℕ) (p q : Quantile α) : Fault α → Prop
  | unordered (h : D.le q.boundary p.boundary = true) :
    Refused D index p q (.unordered index q.boundary p.boundary)
  | stuck (hlt : D.lt p.boundary q.boundary = true) (h : D.next? p.boundary = none) :
    Refused D index p q (.neighbour (.noNext p.boundary))
  | decreasing (hlt : D.lt p.boundary q.boundary = true)
    (h : q.cumulative.toNat < p.cumulative.toNat) :
    Refused D index p q (.decreasing q.boundary q.cumulative.toNat p.cumulative.toNat)

theorem absorbs_eq (hv : D.next? p.boundary = some v) : absorbs D p q = D.lt q.boundary v := by
  rw [absorbs, hv, Option.any_some]

theorem Rises.bucketsAfter_eq (h : Rises D p q) (hv : D.next? p.boundary = some v) :
    bucketsAfter D last p index (q :: qs) =
      if D.lt q.boundary v then bucketsAfter D (extended last p q) q (index + 1) qs
      else (bucketsAfter D (opened v p q) q (index + 1) qs).map (last :: ·) := by
  have hle : ¬ D.le q.boundary p.boundary = true := Domain.not_le_of_lt h.lt
  have hcount : ¬ q.cumulative < p.cumulative := by
    rw [UInt64.lt_iff_toNat_lt]
    exact Nat.not_lt.2 h.le
  rw [bucketsAfter, if_neg hle, Domain.next, hv]
  change (if q.cumulative < p.cumulative then _ else _) = _
  rw [if_neg hcount]
  rfl

/-- **What the walk does at a quantile.** -/
theorem bucketsAfter_cons_cases (last : Bucket α) (p q : Quantile α) (index : ℕ)
    (qs : List (Quantile α)) :
    (∃ f, Refused D index p q f ∧ bucketsAfter D last p index (q :: qs) = .error f) ∨
      ∃ v, Rises D p q ∧ D.next? p.boundary = some v ∧ bucketsAfter D last p index (q :: qs) =
        if D.lt q.boundary v then bucketsAfter D (extended last p q) q (index + 1) qs
        else (bucketsAfter D (opened v p q) q (index + 1) qs).map (last :: ·) := by
  cases hle : D.le q.boundary p.boundary with
  | true => exact .inl ⟨_, .unordered hle, by rw [bucketsAfter, if_pos hle]⟩
  | false =>
    have hlt : D.lt p.boundary q.boundary = true := Domain.not_le.1 hle
    have hnot : ¬ D.le q.boundary p.boundary = true := Bool.eq_false_iff.1 hle
    cases hv : D.next? p.boundary with
    | none =>
      refine .inl ⟨_, .stuck hlt hv, ?_⟩
      rw [bucketsAfter, if_neg hnot, Domain.next, hv]
      rfl
    | some v =>
      by_cases hcount : q.cumulative < p.cumulative
      · refine .inl ⟨_, .decreasing hlt (UInt64.lt_iff_toNat_lt.1 hcount), ?_⟩
        rw [bucketsAfter, if_neg hnot, Domain.next, hv]
        exact if_pos hcount
      · have hrises : Rises D p q := ⟨hlt, by rwa [UInt64.lt_iff_toNat_lt, Nat.not_lt] at hcount⟩
        exact .inr ⟨v, hrises, rfl, hrises.bucketsAfter_eq hv⟩

/-! ## The whole walk -/

/-- **The buckets gathered** from one that ends at a quantile and the quantiles behind it. -/
inductive Gathered (D : Domain α) :
    Bucket α → Quantile α → List (Quantile α) → List (Bucket α) → Prop
  | close {last : Bucket α} {p : Quantile α} : Gathered D last p [] [last]
  | extend {last : Bucket α} {p q : Quantile α} {qs : List (Quantile α)} {bs : List (Bucket α)}
    {v : α} (hrises : Rises D p q) (hv : D.next? p.boundary = some v)
    (hlt : D.lt q.boundary v = true) (rest : Gathered D (extended last p q) q qs bs) :
    Gathered D last p (q :: qs) bs
  | fresh {last : Bucket α} {p q : Quantile α} {qs : List (Quantile α)} {bs : List (Bucket α)}
    {v : α} (hrises : Rises D p q) (hv : D.next? p.boundary = some v)
    (hle : D.le v q.boundary = true) (rest : Gathered D (opened v p q) q qs bs) :
    Gathered D last p (q :: qs) (last :: bs)

/-- **The walk ends** exactly with the gathered buckets. -/
theorem bucketsAfter_eq_ok_iff :
    bucketsAfter D last p index qs = .ok bs ↔ Gathered D last p qs bs := by
  constructor
  · intro h
    induction qs generalizing last p index bs with
    | nil => exact Except.ok.inj h ▸ .close
    | cons q qs ih =>
      obtain ⟨f, _, heq⟩ | ⟨v, hrises, hv, heq⟩ := bucketsAfter_cons_cases last p q index qs
      · cases heq.symm.trans h
      rw [heq] at h
      split at h
      case isTrue hlt => exact .extend hrises hv hlt (ih h)
      case isFalse hlt =>
        obtain ⟨others, hothers, rfl⟩ := map_eq_ok_iff.1 h
        exact .fresh hrises hv (Domain.not_lt.1 (Bool.eq_false_iff.2 hlt)) (ih hothers)
  · intro h
    induction h generalizing index with
    | close => rfl
    | extend hrises hv hlt _ ih => rw [hrises.bucketsAfter_eq hv, if_pos hlt, ih]
    | fresh hrises hv hle _ ih =>
      rw [hrises.bucketsAfter_eq hv, if_neg (Domain.not_lt_of_le hle), ih]
      rfl

/-- **Why the walk fails**: a quantile is refused after the one before it. -/
theorem fault_of_bucketsAfter (h : bucketsAfter D last p index qs = .error f) :
    ∃ p' q' index', [p', q'] <:+: p :: qs ∧ Refused D index' p' q' f := by
  induction qs generalizing last p index with
  | nil => cases h
  | cons q qs ih =>
    obtain ⟨f', hf, heq⟩ | ⟨v, _, _, heq⟩ := bucketsAfter_cons_cases last p q index qs
    · cases heq.symm.trans h
      exact ⟨p, q, index, ⟨[], qs, rfl⟩, hf⟩
    have hrest : ∃ last', bucketsAfter D last' q (index + 1) qs = .error f := by
      rw [heq] at h
      split at h
      case isTrue => exact ⟨_, h⟩
      case isFalse => exact ⟨_, map_eq_error_iff.1 h⟩
    obtain ⟨last', hrest⟩ := hrest
    obtain ⟨p', q', index', hin, hf⟩ := ih hrest
    exact ⟨p', q', index', List.infix_cons hin, hf⟩

/-! ## What a step preserves -/

/-- **A bucket under way** ends at the last quantile, and makes up its count together with the rows
in the buckets before it. -/
structure UnderWay (D : Domain α) (n : ℕ) (last : Bucket α) (p : Quantile α) : Prop where
  upper : last.upper = p.boundary
  bounds : D.le last.lower last.upper = true
  count : n + last.frequency = p.cumulative.toNat

theorem UnderWay.extended (h : UnderWay D n last p) (hrises : Rises D p q) :
    UnderWay D n (extended last p q) q where
  upper := rfl
  bounds := Domain.le_trans h.bounds (h.upper ▸ Domain.le_of_lt hrises.lt)
  count := by
    have hcount := h.count
    have hle := hrises.le
    simp only [Histogram.extended, rowsBetween]
    omega

theorem UnderWay.opened (h : UnderWay D n last p) (hrises : Rises D p q)
    (hle : D.le v q.boundary = true) : UnderWay D (n + last.frequency) (opened v p q) q where
  upper := rfl
  bounds := hle
  count := by
    have hcount := h.count
    have hle := hrises.le
    simp only [Histogram.opened, rowsBetween]
    omega

namespace Gathered

/-- Every quantile stands above the one before it. -/
theorem isChain_rises (h : Gathered D last p qs bs) : (p :: qs).IsChain (Rises D) := by
  induction h with
  | close => exact .singleton _
  | extend hrises _ _ _ ih => exact .cons_cons hrises ih
  | fresh hrises _ _ _ ih => exact .cons_cons hrises ih

/-- The first bucket starts where the one under way does. -/
theorem exists_cons (h : Gathered D last p qs bs) :
    ∃ b rest, bs = b :: rest ∧ b.lower = last.lower := by
  induction h with
  | close => exact ⟨_, [], rfl, rfl⟩
  | extend _ _ _ _ ih => exact ih
  | fresh => exact ⟨_, _, rfl, rfl⟩

/-- The gathered buckets end no earlier than they start. -/
theorem bounds (h : Gathered D last p qs bs) (hway : UnderWay D n last p) :
    ∀ b ∈ bs, D.le b.lower b.upper = true := by
  induction h generalizing n with
  | close => exact List.forall_mem_singleton.2 hway.bounds
  | extend hrises _ _ _ ih => exact ih (hway.extended hrises)
  | fresh hrises _ hle _ ih =>
    exact List.forall_mem_cons.2 ⟨hway.bounds, ih (hway.opened hrises hle)⟩

/-- **Every bucket starts at the value after the one before it.** -/
theorem isChain (h : Gathered D last p qs bs) (hway : UnderWay D n last p) :
    bs.IsChain fun a b => D.next? a.upper = some b.lower := by
  induction h generalizing n with
  | close => exact .singleton _
  | extend hrises _ _ _ ih => exact ih (hway.extended hrises)
  | fresh hrises hv hle rest ih =>
    have hchain := ih (hway.opened hrises hle)
    obtain ⟨b, others, rfl, hb⟩ := rest.exists_cons
    exact .cons_cons (by rw [hway.upper, hv, hb, opened]) hchain

/-- **A bucket ends at a quantile**, and starts where the first one does or after a quantile. -/
theorem exists_of_mem (h : Gathered D last p qs bs) (hlast : last.upper = p.boundary) :
    ∀ b ∈ bs, (∃ q ∈ p :: qs, b.upper = q.boundary) ∧
      (b.lower = last.lower ∨ ∃ q ∈ p :: qs, D.next? q.boundary = some b.lower) := by
  induction h with
  | @close last p =>
    exact List.forall_mem_singleton.2 ⟨⟨p, List.mem_cons_self, hlast⟩, .inl rfl⟩
  | @extend last p q qs bs v hrises hv hlt _ ih =>
    intro b hb
    obtain ⟨⟨r, hr, hupper⟩, hlower⟩ := ih rfl b hb
    refine ⟨⟨r, List.mem_cons_of_mem _ hr, hupper⟩, hlower.imp_right ?_⟩
    exact fun ⟨r, hr, hnext⟩ => ⟨r, List.mem_cons_of_mem _ hr, hnext⟩
  | @fresh last p q qs bs v hrises hv hle _ ih =>
    refine List.forall_mem_cons.2 ⟨⟨⟨p, List.mem_cons_self, hlast⟩, .inl rfl⟩, fun b hb => ?_⟩
    obtain ⟨⟨r, hr, hupper⟩, hlower⟩ := ih rfl b hb
    refine ⟨⟨r, List.mem_cons_of_mem _ hr, hupper⟩, .inr ?_⟩
    obtain hlower | ⟨r, hr, hnext⟩ := hlower
    · exact ⟨p, List.mem_cons_self, hlower ▸ hv⟩
    · exact ⟨r, List.mem_cons_of_mem _ hr, hnext⟩

/-- **The rows up to the end** are those of the last quantile, where the last bucket ends. -/
theorem exists_getLast? (h : Gathered D last p qs bs) (hway : UnderWay D n last p) :
    ∃ b q, bs.getLast? = some b ∧ (p :: qs).getLast? = some q ∧ b.upper = q.boundary ∧
      n + Bucket.total bs = q.cumulative.toNat := by
  induction h generalizing n with
  | close => exact ⟨_, _, rfl, rfl, hway.upper, hway.count⟩
  | extend hrises _ _ _ ih =>
    obtain ⟨b, q, hb, hq, heq⟩ := ih (hway.extended hrises)
    exact ⟨b, q, hb, by rw [List.getLast?_cons_cons, hq], heq⟩
  | @fresh last _ _ _ bs _ hrises _ hle rest ih =>
    obtain ⟨b, q, hb, hq, hupper, htotal⟩ := ih (hway.opened hrises hle)
    refine ⟨b, q, ?_, by rw [List.getLast?_cons_cons, hq], hupper, ?_⟩
    · obtain ⟨_, _, rfl, _⟩ := rest.exists_cons
      rw [List.getLast?_cons_cons, hb]
    · rw [Bucket.total, ← htotal, Nat.add_assoc]

end Gathered

/-- **Gathered buckets are separated**, where steps are strict. -/
theorem Gathered.separated (hD : D.Strict) (h : Gathered D last p qs bs)
    (hway : UnderWay D n last p) : Separated D bs :=
  ⟨h.bounds hway, (h.isChain hway).imp fun _ _ => hD.lt_of_next?⟩

/-- **Gathered buckets are a histogram.** -/
theorem Gathered.valid (hD : D.Strict) (h : Gathered D last p qs bs) (hway : UnderWay D 0 last p) :
    Valid D bs := by
  refine valid_iff_separated.2 ⟨h.separated hD hway, ?_⟩
  obtain ⟨_, q, _, _, _, htotal⟩ := h.exists_getLast? hway
  rw [Nat.zero_add] at htotal
  exact htotal ▸ q.cumulative.toNat_lt

/-! ## The histogram -/

/-- The bucket that ends at the first quantile. -/
def firstBucket (v : α) (q : Quantile α) : Bucket α := ⟨v, q.boundary, q.cumulative.toNat⟩

/-- **Where the first bucket starts**: at the minimum, or at the value before it if the first
boundary is the minimum. -/
theorem firstLower_eq_ok_iff {boundary : α} : firstLower D minimum boundary = .ok v ↔
    D.lt minimum boundary = true ∧ v = minimum ∨
      D.same boundary minimum = true ∧ D.previous? minimum = some v := by
  have hlt : D.lt minimum boundary = true ↔ D.compare boundary minimum = .gt := by
    rw [Domain.lt_iff, Std.OrientedCmp.gt_iff_lt]
  rw [hlt, Domain.same_iff, firstLower]
  cases hc : D.compare boundary minimum with
  | lt => simp
  | eq =>
    rw [cutAt_eq_ok_iff, Domain.previous_eq_ok_iff]
    simp
  | gt => simp [eq_comm]

/-- …so there is a start unless the first boundary is below the minimum, or is a minimum without a
predecessor. -/
theorem exists_firstLower_iff {boundary : α} : (∃ v, firstLower D minimum boundary = .ok v) ↔
    D.le minimum boundary = true ∧
      (D.same boundary minimum = true → (D.previous? minimum).isSome = true) := by
  simp only [firstLower_eq_ok_iff]
  constructor
  · rintro ⟨v, ⟨hlt, rfl⟩ | ⟨hsame, hprev⟩⟩
    · refine ⟨Domain.le_of_lt hlt, fun hsame => absurd (Domain.same_symm hsame) ?_⟩
      exact Bool.eq_false_iff.1 (Domain.not_same_of_lt hlt)
    · exact ⟨(Domain.same_iff_le.1 hsame).2, fun _ => hprev ▸ rfl⟩
  · rintro ⟨hle, hprev⟩
    cases hlt : D.lt minimum boundary with
    | true => exact ⟨minimum, .inl ⟨rfl, rfl⟩⟩
    | false =>
      have hsame := Domain.same_iff_le.2 ⟨Domain.not_lt.1 hlt, hle⟩
      obtain ⟨v, hv⟩ := Option.isSome_iff_exists.1 (hprev hsame)
      exact ⟨v, .inr ⟨hsame, hv⟩⟩

/-- …and otherwise the first boundary is below the minimum, or the minimum has no predecessor. -/
theorem fault_of_firstLower {boundary : α} (h : firstLower D minimum boundary = .error f) :
    D.lt boundary minimum = true ∧ f = .belowMinimum boundary minimum ∨
      D.same boundary minimum = true ∧ D.previous? minimum = none ∧
        f = .neighbour (.noPrevious minimum) := by
  rw [firstLower] at h
  split at h
  case h_1 hc => exact .inl ⟨Domain.lt_iff.2 hc, (Except.error.inj h).symm⟩
  case h_2 hc =>
    refine .inr ⟨Domain.same_iff.2 hc, ?_⟩
    rw [Domain.previous] at h
    cases hp : D.previous? minimum with
    | some v =>
      rw [hp] at h
      cases h
    | none =>
      rw [hp] at h
      exact ⟨rfl, (Except.error.inj h).symm⟩
  case h_3 => cases h

/-- **Quantiles have a histogram** exactly when the first bucket has a start and the walk ends; its
buckets are the gathered ones. -/
theorem ofQuantiles_cons_eq_ok_iff : ofQuantiles D minimum (q :: qs) = .ok h ↔
    ∃ v, firstLower D minimum q.boundary = .ok v ∧
      Gathered D (firstBucket v q) q qs h.buckets := by
  rw [ofQuantiles, bind_eq_ok_iff]
  refine exists_congr fun v => and_congr_right fun hv => ?_
  rw [bind_eq_ok_iff]
  constructor
  · rintro ⟨bs, hbs, hh⟩
    rw [buckets_of_ofBuckets hh]
    exact bucketsAfter_eq_ok_iff.1 hbs
  · intro hg
    exact ⟨h.buckets, bucketsAfter_eq_ok_iff.2 hg, ofBuckets_of_valid h.valid⟩

/-- A minimum that is the first boundary is refused if no value precedes it. -/
theorem ofQuantiles_of_previous?_eq_none (hsame : D.same q.boundary minimum = true)
    (hprev : D.previous? minimum = none) :
    ofQuantiles D minimum (q :: qs) = .error (.neighbour (.noPrevious minimum)) := by
  rw [ofQuantiles, firstLower, Domain.same_iff.1 hsame]
  change (cutAt (D.previous minimum) >>= _) = _
  rw [Domain.previous, hprev]
  rfl

section Strict

variable (hD : D.Strict)
include hD

theorem le_of_firstLower {boundary : α} (h : firstLower D minimum boundary = .ok v) :
    D.le v boundary = true := by
  obtain ⟨hlt, rfl⟩ | ⟨hsame, hv⟩ := firstLower_eq_ok_iff.1 h
  · exact Domain.le_of_lt hlt
  · exact Domain.le_of_lt
      (Domain.lt_of_lt_of_le (hD.lt_of_previous? hv) (Domain.same_iff_le.1 hsame).2)

theorem le_minimum_of_firstLower {boundary : α} (h : firstLower D minimum boundary = .ok v) :
    D.le v minimum = true := by
  obtain ⟨_, rfl⟩ | ⟨_, hv⟩ := firstLower_eq_ok_iff.1 h
  · exact Domain.le_refl
  · exact Domain.le_of_lt (hD.lt_of_previous? hv)

theorem underWay_firstBucket (h : firstLower D minimum q.boundary = .ok v) :
    UnderWay D 0 (firstBucket v q) q where
  upper := rfl
  bounds := le_of_firstLower hD h
  count := Nat.zero_add _

/-- **Why quantiles are refused**: the first boundary is below the minimum, the minimum has no
predecessor although it is the first boundary, or a quantile is refused after another. -/
theorem fault_of_ofQuantiles (hf : ofQuantiles D minimum rows = .error f) :
    ∃ q qs, rows = q :: qs ∧
      (D.lt q.boundary minimum = true ∧ f = .belowMinimum q.boundary minimum ∨
        (D.same q.boundary minimum = true ∧ D.previous? minimum = none ∧
          f = .neighbour (.noPrevious minimum)) ∨
        ∃ p' q' index, [p', q'] <:+: rows ∧ Refused D index p' q' f) := by
  cases rows with
  | nil => cases hf
  | cons q qs =>
    refine ⟨q, qs, rfl, ?_⟩
    cases hv : firstLower D minimum q.boundary with
    | error f' =>
      rw [ofQuantiles, hv] at hf
      obtain rfl := Except.error.inj hf
      exact (fault_of_firstLower hv).imp_right .inl
    | ok v =>
      refine .inr (.inr ?_)
      cases hbs : bucketsAfter D (firstBucket v q) q 1 qs with
      | error f' =>
        have herror : ofQuantiles D minimum (q :: qs) = .error f' := by
          rw [ofQuantiles, hv]
          change (bucketsAfter D (firstBucket v q) q 1 qs >>= _) = _
          rw [hbs]
          rfl
        obtain rfl := Except.error.inj (herror.symm.trans hf)
        exact fault_of_bucketsAfter hbs
      | ok bs =>
        have hg := bucketsAfter_eq_ok_iff.1 hbs
        have hvalid := hg.valid hD (underWay_firstBucket hD hv)
        have hok := (ofQuantiles_cons_eq_ok_iff (h := ⟨bs, hvalid⟩)).2 ⟨v, hv, hg⟩
        cases hf.symm.trans hok

end Strict

end CatalogStats.Histogram
