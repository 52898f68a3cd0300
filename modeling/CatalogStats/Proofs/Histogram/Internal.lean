import CatalogStats.Proofs.Histogram.Gathering
import CatalogStats.Proofs.Histogram.Success

/-!
# Proofs/Histogram/Internal — checks that never fail and sums that never overflow

Some faults only report that the program has contradicted itself: a bucket it built is inverted or
overlaps another, or a total is not the expected one.  Neither refining nor gathering quantiles ever
reports one (`internal_unreachable`), and every sum and difference they form on the way has 64 bits:
the running total of a refinement (`updated?_eq`) and the frequency of a bucket that is extended
(`checkedOfQuantiles_eq`).
-/

namespace CatalogStats.Histogram

variable {α : Type} {D : Domain α} {on : α → Prop} {h : Histogram D} {b last : Bucket α}
  {bs : List (Bucket α)} {ts tallies : List (Tally α)} {notes : List (Note α)} {p q : Quantile α}
  {qs rows : List (Quantile α)} {f : Fault α} {minimum : α} {index n : ℕ}

/-- **A fault that only the program itself can be blamed for.** -/
inductive Fault.Internal : Fault α → Prop
  | inverted (index : ℕ) (lower upper : α) : Internal (.inverted index lower upper)
  | overlapping (index : ℕ) (lower upper : α) : Internal (.overlapping index lower upper)
  | totalMismatch (expected actual : ℕ) : Internal (.totalMismatch expected actual)

/-! ## What refining can report -/

/-- **The faults of a refinement.**  Counts are too many only if those inside one bucket are. -/
inductive Reported (bs : List (Bucket α)) (D : Domain α) (tallies : List (Tally α)) : Fault α → Prop
  | repeated (v : α) : Reported bs D tallies (.repeated v)
  | outside (v lower upper : α) : Reported bs D tallies (.outside v lower upper)
  | uncovered (v : α) : Reported bs D tallies (.uncovered v)
  | overdrawn (b : Bucket α) (removed : ℕ) : Reported bs D tallies (.overdrawn b removed)
  | unplaced (b : Bucket α) (residual : ℕ) : Reported bs D tallies (.unplaced b residual)
  | neighbour (fault : Domain.Fault α) : Reported bs D tallies (.neighbour fault)
  | tooMany (b : Bucket α) (hb : b ∈ bs)
    (h : 18446744073709551616 ≤ countOf (talliesIn D b tallies)) :
    Reported bs D tallies (.tooMany b.lower b.upper)

/-- **Why a bucket cannot be cut**: as where all neighbours exist, or for the want of one. -/
theorem fault_of_cut_or_segments (h : cut D b ts = .error f) :
    (18446744073709551616 ≤ countOf ts ∧ f = .tooMany b.lower b.upper) ∨
      f = .overdrawn b (countOf ts) ∨ f = .unplaced b (b.frequency - countOf ts) ∨
      ∃ fault, f = .neighbour fault := by
  cases hpieces : segments D b.upper (some b.lower) ts with
  | ok pieces =>
    obtain hmany | ⟨_, rfl⟩ | ⟨_, _, rfl⟩ := fault_of_cut hpieces h
    · exact .inl hmany
    · exact .inr (.inl rfl)
    · exact .inr (.inr (.inl rfl))
  | error fault =>
    change (if 18446744073709551616 ≤ countOf ts then _ else if b.frequency < countOf ts then _
      else cutAt (segments D b.upper (some b.lower) ts) >>= _) = _ at h
    split at h
    case isTrue hmany => exact .inl ⟨hmany, (Except.error.inj h).symm⟩
    case isFalse =>
    split at h
    case isTrue => exact .inr (.inl (Except.error.inj h).symm)
    case isFalse =>
      rw [hpieces] at h
      exact .inr (.inr (.inr ⟨fault, (Except.error.inj h).symm⟩))

theorem reported_of_refineBucket (hp : ts.Perm tallies) (hb : b ∈ bs)
    (h : (refineBucket D b (talliesIn D b ts)).result = .error f) : Reported bs D tallies f := by
  cases hts : talliesIn D b ts with
  | nil =>
    rw [hts] at h
    cases h
  | cons t us =>
    rw [hts, refineBucket] at h
    split at h
    case isTrue =>
      split at h
      case isTrue => exact Except.error.inj h ▸ .overdrawn b _
      case isFalse => cases h
    case isFalse =>
      obtain ⟨hmany, rfl⟩ | rfl | rfl | ⟨fault, rfl⟩ := fault_of_cut_or_segments (hts ▸ h)
      · exact .tooMany b hb (countOf_talliesIn_perm hp b ▸ hts ▸ hmany)
      · exact .overdrawn b _
      · exact .unplaced b _
      · exact .neighbour fault

section Refine

variable (hD : D.Strict) (hspan : ∀ a c, 0 < D.span a c)
include hD hspan

/-- **Why refining fails**: for a value by itself, or because a bucket cannot be refined. -/
theorem fault_of_refine (hf : (h.refine tallies).result = .error f) :
    ((∃ v, f = .repeated v) ∨ (∃ v lower upper, f = .outside v lower upper) ∨
      ∃ v, f = .uncovered v) ∨
    Ascending D (sorted D tallies) ∧ ∃ b ∈ h.buckets,
      (refineBucket D b (talliesIn D b (sorted D tallies))).result = .error f := by
  have hne : tallies ≠ [] := by
    rintro rfl
    cases hf
  by_cases hrep : Repeats D tallies
  · obtain ⟨t, _, _, hd⟩ := distinct_of_repeats hrep
    rw [refine_of_distinct_eq_error hne hd] at hf
    exact .inl (.inl ⟨t.value, (Except.error.inj hf).symm⟩)
  have ha : Ascending D (sorted D tallies) := ascending_sorted_iff.2 hrep
  cases hr : h.rangeFault? (sorted D tallies) with
  | some f' =>
    rw [refine_of_rangeFault?_eq_some hne hrep hr] at hf
    obtain rfl := Except.error.inj hf
    rw [rangeFault?] at hr
    split at hr
    case h_1 lower upper _ _ =>
      obtain ⟨t, _, rfl⟩ := Option.map_eq_some_iff.1 hr
      exact .inl (.inr (.inl ⟨t.value, lower, upper, rfl⟩))
    case h_2 =>
      obtain ⟨t, _, rfl⟩ := Option.map_eq_some_iff.1 hr
      exact .inl (.inr (.inr ⟨t.value, rfl⟩))
  | none =>
    have hrange : ∀ t ∈ tallies, h.InRange t.value :=
      forall_mem_sorted.1 (rangeFault?_eq_none_iff.1 hr)
    have hwalk := refineBuckets_eq_error hD hspan hne hrep hrange hf
    obtain ⟨t, _, _, rfl⟩ | hbucket := fault_of_refineBuckets h.valid ha hwalk
    · exact .inl (.inr (.inr ⟨t.value, rfl⟩))
    · exact .inr ⟨ha, hbucket⟩

/-- **No fault of a refinement is internal**, and the counts inside a bucket are too many if it says
so. -/
theorem reported_of_refine (hf : (h.refine tallies).result = .error f) :
    Reported h.buckets D tallies f := by
  obtain (⟨v, rfl⟩ | ⟨v, lower, upper, rfl⟩ | ⟨v, rfl⟩) | ⟨_, b, hb, hf⟩ :=
    fault_of_refine hD hspan hf
  · exact .repeated v
  · exact .outside v lower upper
  · exact .uncovered v
  · exact reported_of_refineBucket (sorted_perm tallies) hb hf

/-- **On a lattice no neighbour is missing.** -/
theorem ne_neighbour_of_refine (L : D.Lattice on) (hon : ∀ v, on v)
    (hf : (h.refine tallies).result = .error f) (fault : Domain.Fault α) :
    f ≠ .neighbour fault := by
  rintro rfl
  obtain (⟨v, hv⟩ | ⟨v, lower, upper, hv⟩ | ⟨v, hv⟩) | ⟨ha, b, hb, hf⟩ :=
    fault_of_refine hD hspan hf
  · cases hv
  · cases hv
  · cases hv
  · cases truthful_of_refineBucket hD L hon hb (h.valid.bounds b hb) ha hf

end Refine

/-! ## The running total

For every note the frequency of its bucket is taken off the total, and the exact count is added. -/

/-- **The total after some notes**, unless a difference is negative or a sum has more than 64
bits. -/
def updated? : ℕ → List (Note α) → Option ℕ
  | total, [] => some total
  | total, n :: notes =>
    if n.frequency ≤ total ∧ total - n.frequency + n.count < 18446744073709551616 then
      updated? (total - n.frequency + n.count) notes
    else none

/-- Notes by which frequencies of at most `total` rows become less. -/
structure NotesFit (total : ℕ) (notes : List (Note α)) : Prop where
  count_lt : ∀ n ∈ notes, n.count < n.frequency
  frequency_le : sumOf (notes.map Note.frequency) ≤ total

theorem notesFit_append {m : ℕ} {notes' : List (Note α)} (h : NotesFit n notes)
    (h' : NotesFit m notes') : NotesFit (n + m) (notes ++ notes') where
  count_lt := List.forall_mem_append.2 ⟨h.count_lt, h'.count_lt⟩
  frequency_le := by
    rw [List.map_append, sumOf_append]
    exact Nat.add_le_add h.frequency_le h'.frequency_le

theorem notesFit_nil (total : ℕ) : NotesFit total ([] : List (Note α)) := ⟨nofun, Nat.zero_le _⟩

theorem notesFit_notesAt (ts : List (Tally α)) (b : Bucket α) :
    NotesFit b.frequency (notesAt D ts b) := by
  refine ⟨fun _ => count_lt_of_mem_notesAt, ?_⟩
  obtain hnil | ⟨t, _, hnotes⟩ := notesAt_cases (D := D) ts b
  · rw [hnil]
    exact Nat.zero_le _
  · rw [hnotes]
    exact Nat.le_refl _

/-- **The notes of the walk fit the buckets it passes**, also where it ends with a fault. -/
theorem notesFit_refineBuckets (hv : Valid D bs) (ha : Ascending D ts) :
    NotesFit (Bucket.total bs) (refineBuckets D bs ts).notes := by
  induction bs generalizing ts with
  | nil => cases ts <;> exact notesFit_nil _
  | cons b bs ih =>
    obtain ⟨_, _, _, heq⟩ | ⟨_, ⟨_, _, heq⟩ | ⟨_, _, heq⟩⟩ :=
      refineBuckets_cons_cases bs (hv.bounds b List.mem_cons_self) ha
    · rw [heq]
      exact notesFit_nil _
    · rw [heq, ← List.append_nil (notesAt D ts b)]
      exact notesFit_append (notesFit_notesAt ts b) (notesFit_nil _)
    · rw [heq]
      exact notesFit_append (notesFit_notesAt ts b)
        (ih hv.tail (ha.sublist (List.dropWhile_sublist _)))

theorem notesFit_refine (h : Histogram D) (tallies : List (Tally α)) :
    NotesFit h.total (h.refine tallies).notes := by
  by_cases hne : tallies = []
  · rw [hne]
    exact notesFit_nil _
  by_cases hrep : Repeats D tallies
  · obtain ⟨t, _, _, hd⟩ := distinct_of_repeats hrep
    rw [refine_of_distinct_eq_error hne hd]
    exact notesFit_nil _
  cases hr : h.rangeFault? (sorted D tallies) with
  | some f =>
    rw [refine_of_rangeFault?_eq_some hne hrep hr]
    exact notesFit_nil _
  | none =>
    rw [refine_of_rangeFault?_eq_none hne hrep hr]
    exact notesFit_refineBuckets h.valid (ascending_sorted_iff.2 hrep)

/-- **The running total** never leaves 64 bits: what is taken off is part of it, and less comes
back. -/
theorem updated?_eq {total : ℕ} (h : NotesFit total notes) (hlt : total < 18446744073709551616) :
    updated? total notes =
      some (total + sumOf (notes.map Note.count) - sumOf (notes.map Note.frequency)) := by
  induction notes generalizing total with
  | nil => rfl
  | cons n notes ih =>
    obtain ⟨hn, hnotes⟩ := List.forall_mem_cons.1 h.count_lt
    have hle := h.frequency_le
    simp only [List.map_cons, sumOf_cons] at hle ⊢
    have hrest : NotesFit (total - n.frequency + n.count) notes := ⟨hnotes, by omega⟩
    rw [updated?, if_pos (by omega), ih hrest (by omega)]
    apply congrArg some
    omega

/-! ## Extending a bucket -/

/-- The walk along the quantiles, unless it extends a bucket to more rows than 64 bits can count. -/
def checkedBucketsAfter (D : Domain α) (last : Bucket α) (p : Quantile α) :
    ℕ → List (Quantile α) → Option (Except (Fault α) (List (Bucket α)))
  | _, [] => some (.ok [last])
  | index, q :: qs =>
    if D.le q.boundary p.boundary then
      some (.error (.unordered index q.boundary p.boundary))
    else
      match cutAt (D.next p.boundary) with
      | .error fault => some (.error fault)
      | .ok lower =>
        if q.cumulative < p.cumulative then
          some (.error (.decreasing q.boundary q.cumulative.toNat p.cumulative.toNat))
        else if D.lt q.boundary lower then
          if last.frequency + rowsBetween p q < 18446744073709551616 then
            checkedBucketsAfter D (extended last p q) q (index + 1) qs
          else none
        else (checkedBucketsAfter D (opened lower p q) q (index + 1) qs).map (·.map (last :: ·))

/-- The histogram of quantiles, unless a bucket is extended to more rows than 64 bits can count. -/
def checkedOfQuantiles (D : Domain α) (minimum : α) :
    List (Quantile α) → Option (Except (Fault α) (Histogram D))
  | [] => some (.ok empty)
  | q :: qs =>
    match firstLower D minimum q.boundary with
    | .error fault => some (.error fault)
    | .ok lower =>
      (checkedBucketsAfter D (firstBucket lower q) q 1 qs).map (· >>= ofBuckets D)

/-- **A bucket under way never overflows**: its frequency is part of a count of 64 bits. -/
theorem checkedBucketsAfter_eq (hway : last.frequency ≤ p.cumulative.toNat) :
    checkedBucketsAfter D last p index qs = some (bucketsAfter D last p index qs) := by
  induction qs generalizing last p index with
  | nil => rfl
  | cons q qs ih =>
    rw [checkedBucketsAfter, bucketsAfter]
    by_cases hle : D.le q.boundary p.boundary = true
    · rw [if_pos hle, if_pos hle]
    rw [if_neg hle, if_neg hle]
    cases cutAt (D.next p.boundary) with
    | error fault => rfl
    | ok lower =>
    change _ = some (if q.cumulative < p.cumulative then _ else _)
    dsimp only
    by_cases hcount : q.cumulative < p.cumulative
    · rw [if_pos hcount, if_pos hcount]
    rw [if_neg hcount, if_neg hcount]
    have hrises : p.cumulative.toNat ≤ q.cumulative.toNat :=
      Nat.not_lt.1 fun hlt => hcount (UInt64.lt_iff_toNat_lt.2 hlt)
    split
    case isTrue hlt =>
      have hnext : last.frequency + rowsBetween p q ≤ q.cumulative.toNat := by
        rw [rowsBetween]
        omega
      rw [if_pos (Nat.lt_of_le_of_lt hnext q.cumulative.toNat_lt), ih hnext]
      rfl
    case isFalse hlt =>
      rw [ih (Nat.sub_le _ _)]
      rfl

theorem checkedOfQuantiles_eq (minimum : α) (rows : List (Quantile α)) :
    checkedOfQuantiles D minimum rows = some (ofQuantiles D minimum rows) := by
  cases rows with
  | nil => rfl
  | cons q qs =>
    rw [checkedOfQuantiles, ofQuantiles]
    cases hlower : firstLower D minimum q.boundary with
    | error fault => rfl
    | ok lower =>
      dsimp only
      rw [checkedBucketsAfter_eq (Nat.le_refl _)]
      rfl

/-! ## What quantiles can be refused for -/

theorem Refused.not_internal (h : Refused D index p q f) : ¬ f.Internal := by
  cases h <;> exact nofun

theorem Refused.ne_tooMany (h : Refused D index p q f) (lower upper : α) :
    f ≠ .tooMany lower upper := by
  cases h <;> exact nofun

/-- **No fault of quantiles is internal**, and none says that there are too many rows. -/
theorem not_internal_of_ofQuantiles (hD : D.Strict) (hf : ofQuantiles D minimum rows = .error f) :
    ¬ f.Internal ∧ ∀ lower upper, f ≠ .tooMany lower upper := by
  obtain ⟨q, qs, _, ⟨_, rfl⟩ | ⟨_, _, rfl⟩ | ⟨p', q', index, _, hrefused⟩⟩ :=
    fault_of_ofQuantiles hD hf
  · exact ⟨nofun, nofun⟩
  · exact ⟨nofun, nofun⟩
  · exact ⟨hrefused.not_internal, hrefused.ne_tooMany⟩

/-- **On a lattice a neighbour is missing** only before the least value of all. -/
theorem least_of_ofQuantiles (hD : D.Strict) (L : D.Lattice on) (hon : ∀ v, on v)
    {fault : Domain.Fault α} (hf : ofQuantiles D minimum rows = .error (.neighbour fault)) :
    (∃ q, rows.head? = some q ∧ q.boundary = minimum) ∧ ∀ v, D.le minimum v = true := by
  obtain ⟨q, qs, rfl, ⟨_, hf⟩ | ⟨hsame, hprev, _⟩ | ⟨p', q', index, _, hrefused⟩⟩ :=
    fault_of_ofQuantiles hD hf
  · cases hf
  · refine ⟨⟨q, rfl, hD.eq_of_same hsame⟩,
      fun v => Domain.not_lt.1 (Bool.eq_false_iff.2 fun hlt => ?_)⟩
    obtain ⟨c, hc, _⟩ := L.exists_previous? (hon minimum) (hon v) ((L.lt_iff (hon _) (hon _)).1 hlt)
    cases hprev.symm.trans hc
  · cases hrefused with
    | stuck hlt hnext =>
      obtain ⟨c, hc, _⟩ := L.exists_next? (hon _) (hon _) ((L.lt_iff (hon _) (hon _)).1 hlt)
      cases hnext.symm.trans hc

/-! ## The main fact -/

/-- **Internal faults are unreachable, and nothing overflows**, when a histogram is refined and when it
is made of quantiles.  On a lattice no neighbour is missing, but for a least value that is both the
minimum and the first boundary. -/
theorem internal_unreachable {k : Kind} (hk : ∀ scale, k ≠ .decimal scale) :
    (∀ (h : Histogram k.domain) tallies f, (h.refine tallies).result = .error f →
      ¬ f.Internal ∧
      (∀ lower upper, f = .tooMany lower upper → ∃ b ∈ h.buckets, b.lower = lower ∧
        b.upper = upper ∧ 18446744073709551616 ≤ countOf (talliesIn k.domain b tallies)) ∧
      (k ≠ .string → ∀ fault, f ≠ .neighbour fault)) ∧
    (∀ (h : Histogram k.domain) tallies, updated? h.total (h.refine tallies).notes =
      some (h.expectedTotal (h.refine tallies).notes)) ∧
    (∀ minimum rows f, ofQuantiles k.domain minimum rows = .error f →
      ¬ f.Internal ∧ (∀ lower upper, f ≠ .tooMany lower upper) ∧
      (k ≠ .string → ∀ fault, f = .neighbour fault →
        (∃ q, rows.head? = some q ∧ q.boundary = minimum) ∧
        ∀ v, k.domain.le minimum v = true)) ∧
    ∀ minimum rows, checkedOfQuantiles k.domain minimum rows =
      some (ofQuantiles k.domain minimum rows) := by
  have hD : k.domain.Strict := Kind.strict hk
  have hon := Kind.onGrid hk
  refine ⟨fun h tallies f hf => ?_, fun h tallies => ?_, fun minimum rows f hf => ?_,
    checkedOfQuantiles_eq⟩
  · have hreported := reported_of_refine hD k.span_pos hf
    refine ⟨?_, ?_, fun hstr => ne_neighbour_of_refine hD k.span_pos (k.lattice hstr) hon hf⟩
    · cases hreported <;> exact nofun
    · rintro lower upper rfl
      cases hreported with
      | tooMany b hb hmany => exact ⟨b, hb, rfl, rfl, hmany⟩
  · exact updated?_eq (notesFit_refine h tallies) h.valid.total_lt
  · obtain ⟨hinternal, hmany⟩ := not_internal_of_ofQuantiles hD hf
    refine ⟨hinternal, hmany, fun hstr fault hfault => ?_⟩
    exact least_of_ofQuantiles hD (k.lattice hstr) hon (hfault ▸ hf)

/-- A count that takes the place of a greater frequency, and the least of all characters as minimum
and first boundary. -/
theorem internal_unreachable_letters : ∃ (h : Histogram Kind.character.domain) (f : Fault Char),
    (h.refine [⟨'a', 4⟩]).notes = [⟨'a', 10, 4⟩] ∧
    updated? h.total (h.refine [⟨'a', 4⟩]).notes = some 4 ∧
    ofQuantiles Kind.character.domain '\x00' [⟨'\x00', 3⟩] = .error f ∧ ¬ f.Internal ∧
    checkedOfQuantiles Kind.character.domain '\x00' [⟨'\x00', 3⟩] = some (.error f) := by
  let h : Histogram Kind.character.domain := ⟨[⟨'a', 'a', 10⟩], by decide, by decide, by decide⟩
  have hnotes : (h.refine [⟨'a', 4⟩]).notes = [⟨'a', 10, 4⟩] := by decide +kernel
  have hf : ofQuantiles Kind.character.domain '\x00' [⟨'\x00', 3⟩] =
      .error (.neighbour (.noPrevious '\x00')) := rfl
  obtain ⟨_, hupdated, hquantiles, hchecked⟩ := internal_unreachable (k := .character) nofun
  refine ⟨h, _, hnotes, ?_, hf, (hquantiles _ _ _ hf).1, ?_⟩
  · rw [hupdated, hnotes]
    rfl
  · rw [hchecked, hf]

end CatalogStats.Histogram
