import CatalogStats.Proofs.Histogram.Allotment
import CatalogStats.Proofs.Histogram.Tallies

/-!
# Proofs/Histogram/Cutting — the pieces of a bucket

Cutting a bucket runs through the counted values inside it and carries along where the next range may
start.  Three facts hold in every domain: the exact pieces are the counted values in order
(`counted_segments`), a range piece spans from where the values before it leave off to where those
after it begin (`opens_closes_of_segments`), and the buckets of the pieces hold the frequency of the
bucket that was cut (`total_of_cut`).
-/

namespace CatalogStats

/-- The least and the greatest value of a bucket. -/
def Bucket.bounds {α : Type} (b : Bucket α) : α × α := (b.lower, b.upper)

namespace Histogram

variable {α : Type} {D : Domain α} {b p : Bucket α} {start : Option α} {stop : α}
  {t : Tally α} {ts : List (Tally α)} {pieces : List (Segment α)} {shares : List ℕ}

namespace Segment

/-- The least value of a piece. -/
def lower : Segment α → α
  | range lower _ => lower
  | exact t => t.value

/-- The greatest value of a piece. -/
def upper : Segment α → α
  | range _ upper => upper
  | exact t => t.value

/-- The least and the greatest value of a piece. -/
def bounds (s : Segment α) : α × α := (s.lower, s.upper)

/-- The counted value that a piece is. -/
def tally? : Segment α → Option (Tally α)
  | range _ _ => none
  | exact t => some t

end Segment

/-- The counted values among pieces. -/
def counted (pieces : List (Segment α)) : List (Tally α) := pieces.filterMap Segment.tally?

@[simp] theorem counted_append (ps qs : List (Segment α)) :
    counted (ps ++ qs) = counted ps ++ counted qs :=
  List.filterMap_append

@[simp] theorem counted_cons_exact (t : Tally α) (ps : List (Segment α)) :
    counted (.exact t :: ps) = t :: counted ps := rfl

@[simp] theorem counted_cons_range (l u : α) (ps : List (Segment α)) :
    counted (.range l u :: ps) = counted ps := rfl

theorem mem_counted : t ∈ counted pieces ↔ .exact t ∈ pieces := by
  refine List.mem_filterMap.trans ⟨?_, fun h => ⟨_, h, rfl⟩⟩
  rintro ⟨s | s, hs, h⟩
  · cases h
  · exact Option.some.inj h ▸ hs

/-! ## One step -/

theorem rangeBefore_eq_ok {value : α} {before : List (Segment α)}
    (h : rangeBefore D start value = .ok before) :
    before = [] ∨ ∃ l u, start = some l ∧ D.lt l value = true ∧ D.previous? value = some u ∧
      D.le l u = true ∧ before = [.range l u] := by
  cases start with
  | none => exact .inl (Except.ok.inj h).symm
  | some l =>
    rw [rangeBefore] at h
    split at h
    case isFalse => exact .inl (Except.ok.inj h).symm
    case isTrue hlt =>
      obtain ⟨u, hu, h⟩ := bind_eq_ok_iff.1 h
      have hprev : D.previous? value = some u := by
        rw [Domain.previous] at hu
        split at hu
        case h_1 hv => exact Except.ok.inj hu ▸ hv
        case h_2 => cases hu
      split at h
      case isTrue hle => exact .inr ⟨l, u, rfl, hlt, hprev, hle, (Except.ok.inj h).symm⟩
      case isFalse => exact .inl (Except.ok.inj h).symm

theorem rangeBefore_of_le {l u value : α} (hlt : D.lt l value = true)
    (hprev : D.previous? value = some u) (hle : D.le l u = true) :
    rangeBefore D (some l) value = .ok [.range l u] := by
  rw [rangeBefore, if_pos hlt, Domain.previous, hprev]
  change Except.ok (if D.le l u = true then _ else _) = _
  rw [if_pos hle]

theorem startAfter_eq_ok_some_iff {value next : α} :
    startAfter D value stop = .ok (some next) ↔
      D.same value stop = false ∧ D.next? value = some next ∧ D.le next stop = true := by
  rw [startAfter, Domain.next]
  cases hsame : D.same value stop with
  | true => exact ⟨fun h => (by cases Except.ok.inj h), nofun⟩
  | false =>
    rw [if_neg (by decide)]
    cases hnext : D.next? value with
    | none => exact ⟨nofun, nofun⟩
    | some c =>
      change Except.ok (if D.le c stop = true then some c else none) = _ ↔ _
      cases hle : D.le c stop with
      | true =>
        refine ⟨fun h => ?_, fun ⟨_, h, _⟩ => by rw [if_pos rfl, h]⟩
        obtain rfl := Option.some.inj (Except.ok.inj h)
        exact ⟨rfl, rfl, hle⟩
      | false =>
        refine ⟨fun h => (by cases Except.ok.inj h), fun ⟨_, h, hle'⟩ => ?_⟩
        rw [← Option.some.inj h, hle] at hle'
        cases hle'

/-- **The pieces around one more counted value.** -/
theorem segments_cons_eq_ok_iff :
    segments D stop start (t :: ts) = .ok pieces ↔
      ∃ before next others, rangeBefore D start t.value = .ok before ∧
        startAfter D t.value stop = .ok next ∧ segments D stop next ts = .ok others ∧
        pieces = before ++ .exact t :: others := by
  have hunfold : segments D stop start (t :: ts) = (do
      let before ← rangeBefore D start t.value
      let next ← startAfter D t.value stop
      let others ← segments D stop next ts
      .ok (before ++ .exact t :: others)) := by
    cases start <;> rfl
  rw [hunfold, bind_eq_ok_iff]
  constructor
  · rintro ⟨before, hbefore, h⟩
    obtain ⟨next, hnext, h⟩ := bind_eq_ok_iff.1 h
    obtain ⟨others, hothers, h⟩ := bind_eq_ok_iff.1 h
    exact ⟨before, next, others, hbefore, hnext, hothers, (Except.ok.inj h).symm⟩
  · rintro ⟨before, next, others, hbefore, hnext, hothers, rfl⟩
    exact ⟨before, hbefore, bind_eq_ok_iff.2 ⟨next, hnext, bind_eq_ok_iff.2 ⟨others, hothers, rfl⟩⟩⟩

theorem segments_nil_eq_ok (h : segments D stop start [] = .ok pieces) :
    (start = none ∧ pieces = []) ∨ ∃ l, start = some l ∧ pieces = [.range l stop] := by
  cases start with
  | none => exact .inl ⟨rfl, (Except.ok.inj h).symm⟩
  | some l => exact .inr ⟨l, rfl, (Except.ok.inj h).symm⟩

/-! ## All pieces -/

/-- **The exact pieces are the counted values**, in order. -/
theorem counted_segments (h : segments D stop start ts = .ok pieces) : counted pieces = ts := by
  induction ts generalizing start pieces with
  | nil =>
    obtain ⟨_, rfl⟩ | ⟨l, _, rfl⟩ := segments_nil_eq_ok h
    · rfl
    · rfl
  | cons t ts ih =>
    obtain ⟨before, next, others, hbefore, _, hothers, rfl⟩ := segments_cons_eq_ok_iff.1 h
    obtain rfl | ⟨l, u, _, _, _, _, rfl⟩ := rangeBefore_eq_ok hbefore
    · rw [List.nil_append, counted_cons_exact, ih hothers]
    · rw [List.singleton_append, counted_cons_range, counted_cons_exact, ih hothers]

/-- Every piece starts where a property holds that holds of the start and of the counted values and
is handed on to the next value. -/
theorem lower_of_mem_segments {P : α → Prop} (hnext : ∀ {a c}, P a → D.next? a = some c → P c)
    (hstart : ∀ c, start = some c → P c) (hts : ∀ t ∈ ts, P t.value)
    (h : segments D stop start ts = .ok pieces) : ∀ s ∈ pieces, P s.lower := by
  induction ts generalizing start pieces with
  | nil =>
    obtain ⟨_, rfl⟩ | ⟨l, hl, rfl⟩ := segments_nil_eq_ok h
    · simp
    · intro s hs
      rw [List.mem_singleton.1 hs]
      exact hstart l hl
  | cons t ts ih =>
    obtain ⟨before, next, others, hbefore, hafter, hothers, rfl⟩ := segments_cons_eq_ok_iff.1 h
    have ht := hts t List.mem_cons_self
    have hrest := ih (fun c hc => hnext ht (startAfter_eq_ok_some_iff.1 (hc ▸ hafter)).2.1)
      (fun u hu => hts u (List.mem_cons_of_mem _ hu)) hothers
    intro s hs
    rcases List.mem_append.1 hs with hs | hs
    · obtain rfl | ⟨l, u, hl, _, _, _, rfl⟩ := rangeBefore_eq_ok hbefore
      · cases hs
      · rw [List.mem_singleton.1 hs]
        exact hstart l hl
    · rcases List.mem_cons.1 hs with rfl | hs
      · exact ht
      · exact hrest s hs

/-! ## Range pieces

`Opens` and `Closes` say where a range piece between two runs of counted values starts and ends. -/

/-- Where a range after the values `before` starts: at the start, or after the last of them. -/
def Opens (D : Domain α) (stop : α) (start : Option α) (before : List (Tally α)) (l : α) : Prop :=
  match before.getLast? with
  | none => start = some l
  | some t => startAfter D t.value stop = .ok (some l)

/-- Where a range from `l` in front of the values `after` ends: at the end, or before the first of
them. -/
def Closes (D : Domain α) (stop : α) (l : α) (after : List (Tally α)) (u : α) : Prop :=
  match after with
  | [] => u = stop
  | t :: _ => D.lt l t.value = true ∧ D.previous? t.value = some u ∧ D.le l u = true

theorem Opens.cons {next : Option α} {before : List (Tally α)} {l : α}
    (hnext : startAfter D t.value stop = .ok next) (h : Opens D stop next before l) :
    Opens D stop start (t :: before) l := by
  cases before with
  | nil => exact hnext.trans (congrArg Except.ok h)
  | cons u before => rwa [Opens, List.getLast?_cons_cons]

/-- A range piece stands between the counted values before it and those after it. -/
theorem opens_closes_of_segments {ps qs : List (Segment α)} {l u : α}
    (h : segments D stop start ts = .ok (ps ++ .range l u :: qs)) :
    Opens D stop start (counted ps) l ∧ Closes D stop l (counted qs) u := by
  induction ts generalizing start ps with
  | nil =>
    obtain ⟨_, h⟩ | ⟨l', hl', h⟩ := segments_nil_eq_ok h
    · cases List.append_eq_nil_iff.1 h |>.2
    · obtain ⟨rfl, h'⟩ | ⟨_, rfl, h'⟩ := List.append_eq_cons_iff.1 h
      · obtain ⟨hs, rfl⟩ := List.cons.inj h'
        cases hs
        exact ⟨hl', rfl⟩
      · cases (List.append_eq_nil_iff.1 h'.symm).2
  | cons t ts ih =>
    obtain ⟨before, next, others, hbefore, hnext, hothers, heq⟩ := segments_cons_eq_ok_iff.1 h
    have hin : ∀ {ps'}, others = ps' ++ .range l u :: qs →
        Opens D stop start (t :: counted ps') l ∧ Closes D stop l (counted qs) u :=
      fun h' => (ih (h' ▸ hothers)).imp_left (Opens.cons hnext)
    obtain rfl | ⟨l', u', hl', hlt, hprev, hle, rfl⟩ := rangeBefore_eq_ok hbefore
    · obtain ⟨rfl, h'⟩ | ⟨ps, rfl, h'⟩ := List.append_eq_cons_iff.1 heq
      · cases h'
      · exact hin h'
    · obtain ⟨rfl, h'⟩ | ⟨ps, rfl, h'⟩ := List.append_eq_cons_iff.1 heq
      · obtain ⟨h', rfl⟩ := List.cons.inj h'
        cases h'
        exact ⟨hl', hlt, hprev, hle⟩
      · obtain ⟨rfl, h''⟩ | ⟨ps, rfl, h''⟩ := List.append_eq_cons_iff.1 h'.symm
        · cases h''
        · exact hin h''

/-- …and there is one wherever such a range has bounds. -/
theorem exists_range_of_opens_closes {before after : List (Tally α)} {l u : α}
    (h : segments D stop start (before ++ after) = .ok pieces)
    (hopen : Opens D stop start before l) (hclose : Closes D stop l after u) :
    .range l u ∈ pieces := by
  induction before generalizing start pieces with
  | nil =>
    obtain rfl : start = some l := hopen
    cases after with
    | nil =>
      obtain rfl : u = stop := hclose
      rw [← Except.ok.inj h]
      exact List.mem_singleton_self _
    | cons t after =>
      obtain ⟨hlt, hprev, hle⟩ := hclose
      obtain ⟨before, _, others, hbefore, _, _, rfl⟩ := segments_cons_eq_ok_iff.1 h
      rw [rangeBefore_of_le hlt hprev hle] at hbefore
      rw [← Except.ok.inj hbefore]
      exact List.mem_append_left _ (List.mem_singleton_self _)
  | cons t before ih =>
    obtain ⟨_, next, others, _, hnext, hothers, rfl⟩ := segments_cons_eq_ok_iff.1 h
    refine List.mem_append_right _ (List.mem_cons_of_mem _ (ih hothers ?_))
    cases before with
    | nil => exact Except.ok.inj (hnext.symm.trans hopen)
    | cons u before => rwa [Opens, List.getLast?_cons_cons] at hopen

/-! ## The buckets of the pieces -/

/-- A bucket has the bounds of a piece, and its count if the piece is a counted value. -/
inductive Fills : Segment α → Bucket α → Prop
  | range (l u : α) (frequency : ℕ) : Fills (.range l u) ⟨l, u, frequency⟩
  | exact (t : Tally α) : Fills (.exact t) (.single t.value t.count.toNat)

theorem fills_fill (pieces : List (Segment α)) (shares : List ℕ) :
    List.Forall₂ Fills pieces (fill pieces shares) := by
  induction pieces generalizing shares with
  | nil => exact .nil
  | cons s pieces ih =>
    cases s with
    | exact t => exact .cons (.exact t) (ih shares)
    | range l u =>
      cases shares with
      | nil => exact .cons (.range l u 0) (ih [])
      | cons n shares => exact .cons (.range l u n) (ih shares)

theorem bounds_of_fills {ps : List (Bucket α)} (h : List.Forall₂ Fills pieces ps) :
    ps.map Bucket.bounds = pieces.map Segment.bounds := by
  induction h with
  | nil => rfl
  | cons h _ ih => cases h <;> exact congrArg _ ih

/-- Buckets stand in order exactly when their pieces do. -/
theorem pairwise_iff_of_fills {ps : List (Bucket α)} (h : List.Forall₂ Fills pieces ps) :
    (ps.Pairwise fun p q => D.lt p.upper q.lower = true) ↔
      pieces.Pairwise fun s q => D.lt s.upper q.lower = true := by
  have hbounds : (ps.map Bucket.bounds).Pairwise (fun p q => D.lt p.2 q.1 = true) ↔
      (pieces.map Segment.bounds).Pairwise fun p q => D.lt p.2 q.1 = true := by
    rw [bounds_of_fills h]
  rwa [List.pairwise_map, List.pairwise_map] at hbounds

theorem mem_fill (h : p ∈ fill pieces shares) :
    (∃ t, .exact t ∈ pieces ∧ p = .single t.value t.count.toNat) ∨
      ∃ l u n, .range l u ∈ pieces ∧ p = ⟨l, u, n⟩ := by
  obtain ⟨s, hs, hfills⟩ := exists_left_of_forall₂ (fills_fill pieces shares) h
  cases hfills with
  | range l u n => exact .inr ⟨l, u, n, hs, rfl⟩
  | exact t => exact .inl ⟨t, hs, rfl⟩

theorem single_mem_fill (h : .exact t ∈ pieces) (shares : List ℕ) :
    .single t.value t.count.toNat ∈ fill pieces shares := by
  obtain ⟨p, hp, hfills⟩ := exists_right_of_forall₂ (fills_fill pieces shares) h
  cases hfills
  exact hp

theorem range_mem_fill {l u : α} (h : .range l u ∈ pieces) (shares : List ℕ) :
    ∃ n, ⟨l, u, n⟩ ∈ fill pieces shares := by
  obtain ⟨p, hp, hfills⟩ := exists_right_of_forall₂ (fills_fill pieces shares) h
  cases hfills
  exact ⟨_, hp⟩

/-- **The buckets hold the counts and the shares**, when there is a share for each range. -/
theorem total_fill (h : shares.length = (weights D pieces).length) :
    Bucket.total (fill pieces shares) = countOf (counted pieces) + sumOf shares := by
  induction pieces generalizing shares with
  | nil =>
    obtain rfl := List.length_eq_zero_iff.1 h
    rfl
  | cons s pieces ih =>
    cases s with
    | exact t =>
      have hrest : Bucket.total (fill pieces shares) = _ := ih h
      simp only [fill, Bucket.total, Bucket.single, counted_cons_exact, countOf, List.map_cons,
        sumOf_cons] at hrest ⊢
      omega
    | range l u =>
      cases shares with
      | nil => cases h
      | cons n shares =>
        have := ih (Nat.succ.inj h)
        simp only [fill, Bucket.total, counted_cons_range, sumOf_cons] at this ⊢
        omega

theorem mem_weights {n : ℕ} (h : n ∈ weights D pieces) :
    ∃ l u, .range l u ∈ pieces ∧ D.span l u = n := by
  induction pieces with
  | nil => cases h
  | cons s pieces ih =>
    cases s with
    | exact t =>
      obtain ⟨l, u, hmem, hspan⟩ := ih h
      exact ⟨l, u, List.mem_cons_of_mem _ hmem, hspan⟩
    | range l u =>
      rcases List.mem_cons.1 h with rfl | h
      · exact ⟨l, u, List.mem_cons_self, rfl⟩
      · obtain ⟨l', u', hmem, hspan⟩ := ih h
        exact ⟨l', u', List.mem_cons_of_mem _ hmem, hspan⟩

theorem weights_ne_nil {l u : α} (h : .range l u ∈ pieces) : weights D pieces ≠ [] := by
  induction pieces with
  | nil => cases h
  | cons s pieces ih =>
    cases s with
    | exact t =>
      rcases List.mem_cons.1 h with h | h
      · cases h
      · exact ih h
    | range l' u' => exact List.cons_ne_nil _ _

/-! ## Cutting -/

theorem cutAt_eq_ok_iff {β : Type} {step : Except (Domain.Fault α) β} {a : β} :
    cutAt step = .ok a ↔ step = .ok a := by
  cases step with
  | ok c => exact ⟨fun h => congrArg _ (Except.ok.inj h), fun h => congrArg _ (Except.ok.inj h)⟩
  | error fault => exact ⟨nofun, nofun⟩

/-- **When a bucket can be cut**, and into what. -/
theorem cut_eq_ok_iff {g : List (Bucket α)} :
    cut D b ts = .ok g ↔ countOf ts < 18446744073709551616 ∧ countOf ts ≤ b.frequency ∧
      ∃ pieces, segments D b.upper (some b.lower) ts = .ok pieces ∧
        (weights D pieces = [] → countOf ts = b.frequency) ∧
        g = fill pieces (Allotment.shares (b.frequency - countOf ts) (weights D pieces)) := by
  change (if 18446744073709551616 ≤ countOf ts then _ else if b.frequency < countOf ts then _
    else cutAt (segments D b.upper (some b.lower) ts) >>= fun pieces =>
      if weights D pieces = [] ∧ b.frequency - countOf ts ≠ 0 then _ else _) = _ ↔ _
  split
  case isTrue h => exact ⟨nofun, fun h' => by omega⟩
  case isFalse h =>
  split
  case isTrue h' => exact ⟨nofun, fun h'' => by omega⟩
  case isFalse h' =>
  rw [bind_eq_ok_iff]
  constructor
  · rintro ⟨pieces, hpieces, hg⟩
    split at hg
    case isTrue => cases hg
    case isFalse hres =>
      refine ⟨by omega, by omega, pieces, cutAt_eq_ok_iff.1 hpieces, fun hw => ?_,
        (Except.ok.inj hg).symm⟩
      by_contra hne
      exact hres ⟨hw, by omega⟩
  · rintro ⟨_, _, pieces, hpieces, hres, rfl⟩
    refine ⟨pieces, cutAt_eq_ok_iff.2 hpieces, if_neg fun ⟨hw, hne⟩ => hne ?_⟩
    rw [hres hw, Nat.sub_self]

/-- **Why a bucket cannot be cut** where all neighbours exist: the counts are too many, or what they
leave over has no place. -/
theorem fault_of_cut {f : Fault α} (hpieces : segments D b.upper (some b.lower) ts = .ok pieces)
    (h : cut D b ts = .error f) :
    (18446744073709551616 ≤ countOf ts ∧ f = .tooMany b.lower b.upper) ∨
      (b.frequency < countOf ts ∧ f = .overdrawn b (countOf ts)) ∨
      (weights D pieces = [] ∧ countOf ts < b.frequency ∧
        f = .unplaced b (b.frequency - countOf ts)) := by
  change (if 18446744073709551616 ≤ countOf ts then _ else if b.frequency < countOf ts then _
    else cutAt (segments D b.upper (some b.lower) ts) >>= fun pieces =>
      if weights D pieces = [] ∧ b.frequency - countOf ts ≠ 0 then _ else _) = _ at h
  split at h
  case isTrue hmany => exact .inl ⟨hmany, (Except.error.inj h).symm⟩
  case isFalse =>
  split at h
  case isTrue hover => exact .inr (.inl ⟨hover, (Except.error.inj h).symm⟩)
  case isFalse hle =>
  rw [hpieces] at h
  change (if weights D pieces = [] ∧ b.frequency - countOf ts ≠ 0 then _ else _) = _ at h
  split at h
  case isTrue hres => exact .inr (.inr ⟨hres.1, by omega, (Except.error.inj h).symm⟩)
  case isFalse => cases h

/-- **A bucket is cut into buckets that hold its frequency**, where every span counts a value. -/
theorem total_of_cut {g : List (Bucket α)} (hspan : ∀ a c, 0 < D.span a c)
    (h : cut D b ts = .ok g) : Bucket.total g = b.frequency := by
  obtain ⟨_, hle, pieces, hpieces, hres, rfl⟩ := cut_eq_ok_iff.1 h
  rw [total_fill (Allotment.length_shares _ _), counted_segments hpieces]
  cases hw : weights D pieces with
  | nil =>
    rw [hres hw, Nat.sub_self]
    rfl
  | cons n ws =>
    have hn : n ∈ weights D pieces := hw ▸ List.mem_cons_self
    obtain ⟨l, u, _, rfl⟩ := mem_weights hn
    rw [Allotment.sumOf_shares ⟨_, List.mem_cons_self, hspan l u⟩]
    omega

end Histogram

end CatalogStats
