import CatalogStats.Profile.Column
import CatalogStats.Profile.Distribution
import CatalogStats.Proofs.Histogram.Enumeration
import CatalogStats.Proofs.Number.Characters

/-!
# Proofs/Profile/Enumeration — the profile of a column whose frequent values are all its values

A column **describes** a collection of values when its texts read as statistics that summarize it.
On a lattice such a column has a profile, unless its minimum is the first boundary and has no
predecessor, and every distinct value has an exact bin in it (`exists_profile_of_describes`).  The
profile is enumerated exactly where these are all exact bins (`isEnumerated_iff_of_describes`), and
then the domain file of a column of whole numbers has one line for each (`enumerates_of_describes`).
-/

namespace CatalogStats.Profile

open Histogram (Summarizes Quantile CutOff ofQuantiles)

/-- **A column that describes a collection of values**: its texts read as statistics of it. -/
structure Describes (k : Kind) (M : Multiset k.Value) (c : Column) (minimum : k.Value)
    (rows : List (Quantile k.Value)) (tallies : List (Tally k.Value)) : Prop
    extends Summarizes k.domain M minimum rows tallies where
  reportedMin : ∃ text, c.reportedMin = some text ∧ Literal.read k text = .ok minimum
  quantiles : List.Forall₂ (fun e q => Literal.read k e.boundary = .ok q.boundary ∧
    e.cumulativeCount = q.cumulative) c.quantiles rows
  frequentValues : List.Forall₂ (fun e t => Literal.read k e.value = .ok t.value ∧
    e.count = t.count) c.frequentValues tallies
  cardinality : c.cardinality.toNat = M.dedup.card

variable {k : Kind} {M : Multiset k.Value} {c : Column} {minimum v : k.Value}
  {rows : List (Quantile k.Value)} {tallies : List (Tally k.Value)} {h s : Histogram k.domain}
  {p : Profile}

/-! ## Reading the statistics -/

namespace Describes

variable (hd : Describes k M c minimum rows tallies)
include hd

theorem minimum_eq : Profile.minimum k c = .ok minimum := by
  obtain ⟨text, htext, hread⟩ := hd.reportedMin
  rw [Profile.minimum, htext]
  exact readValue_of_ok hread

theorem quantiles_eq : Profile.quantiles k c = .ok rows := by
  refine mapM_eq_ok_iff.2 (hd.quantiles.imp fun {e q} ⟨hread, hcount⟩ => ?_)
  rw [readValue_of_ok hread, hcount]
  rfl

theorem tallies_eq : Profile.tallies k c = .ok tallies := by
  refine mapM_eq_ok_iff.2 (hd.frequentValues.imp fun {e t} ⟨hread, hcount⟩ => ?_)
  rw [readValue_of_ok hread, hcount]
  rfl

/-- **The histogram of the column** is that of the quantiles. -/
theorem quantileHistogram_eq :
    quantileHistogram k c = ofColumn c (ofQuantiles k.domain minimum rows) := by
  rw [quantileHistogram, hd.minimum_eq, hd.quantiles_eq]
  rfl

theorem attempt_eq : attempt k c =
    match ofColumn c (ofQuantiles k.domain minimum rows) with
    | .error fault => ⟨[], .error fault⟩
    | .ok h => refined k c h tallies := by
  have hne : c.quantiles.isEmpty = false := by
    refine List.isEmpty_eq_false_iff.2 fun hnil => hd.rows_ne_nil ?_
    exact List.forall₂_nil_left_iff.1 (hnil ▸ hd.quantiles)
  rw [attempt, hd.tallies_eq, ← hd.quantileHistogram_eq]
  exact if_neg (Bool.eq_false_iff.1 hne)

/-- **The profile is that of the refined histogram.** -/
theorem attempt_of_ok (hh : ofQuantiles k.domain minimum rows = .ok h)
    (hs : (h.refine tallies).result = .ok s) :
    (attempt k c).result = .ok (ofHistogram k c s) := by
  rw [hd.attempt_eq, hh]
  change (ofColumn c (h.refine tallies).result).map _ = _
  rw [hs]
  rfl

/-- …and a fault of the quantiles is one of the column. -/
theorem attempt_of_error {f : Histogram.Fault k.Value}
    (hf : ofQuantiles k.domain minimum rows = .error f) :
    (attempt k c).result = .error (.inconsistent c.name k f) := by
  rw [hd.attempt_eq, hf]
  rfl

end Describes

/-! ## Columns of one or two rows -/

/-- The column of a single row. -/
def oneRow (text : String) : Column where
  name := ⟨"s", "t", "c"⟩
  type := ⟨"INTEGER", 8, 0⟩
  reportedMin := some text
  cardinality := 1
  nulls := 0
  quantiles := [⟨text, 1⟩]
  frequentValues := [⟨text, 1⟩]

/-- The column of two rows, with a single quantile. -/
def twoRows (low high : String) : Column where
  name := ⟨"s", "t", "c"⟩
  type := ⟨"INTEGER", 8, 0⟩
  reportedMin := some low
  cardinality := 2
  nulls := 0
  quantiles := [⟨high, 2⟩]
  frequentValues := [⟨high, 1⟩, ⟨low, 1⟩]

/-- It describes its value alone, of whatever kind. -/
theorem describes_oneRow {text : String} (hread : Literal.read k text = .ok v) :
    Describes k {v} (oneRow text) v [⟨v, 1⟩] [⟨v, 1⟩] where
  minimum_mem := Multiset.mem_singleton_self v
  minimum_le := by simp
  rows_ne_nil := List.cons_ne_nil _ _
  ordered := List.pairwise_singleton _ _
  minimum_le_first := by simp
  last_mem := by simp
  le_last := by simp
  cumulative := List.forall_mem_singleton.2 <| by
    rw [Multiset.countP_eq_card.2 (by simp)]
    rfl
  values := by simp
  counts := by simp
  reportedMin := ⟨text, rfl, hread⟩
  quantiles := .cons ⟨hread, rfl⟩ .nil
  frequentValues := .cons ⟨hread, rfl⟩ .nil
  cardinality := by simp [oneRow]

/-- It describes its two values, if the first is smaller. -/
theorem describes_twoRows {low high : String} {w : k.Value} (hlow : Literal.read k low = .ok v)
    (hhigh : Literal.read k high = .ok w) (hlt : k.domain.lt v w = true) :
    Describes k {v, w} (twoRows low high) v [⟨w, 2⟩] [⟨w, 1⟩, ⟨v, 1⟩] := by
  have hle := Domain.le_of_lt hlt
  have hne : v ≠ w := by
    rintro rfl
    exact Domain.not_le_of_lt hlt Domain.le_refl
  exact {
    minimum_mem := by simp
    minimum_le := by simp [hle]
    rows_ne_nil := List.cons_ne_nil _ _
    ordered := List.pairwise_singleton _ _
    minimum_le_first := by simp [hle]
    last_mem := by simp
    le_last := by simp [hle]
    cumulative := List.forall_mem_singleton.2 <| by
      rw [Multiset.countP_eq_card.2 (by simp [hle])]
      rfl
    values := by
      rw [Multiset.dedup_eq_self.2 (by simp [hne])]
      exact Multiset.coe_eq_coe.2 (List.Perm.swap v w [])
    counts := by simp [hne, hne.symm]
    reportedMin := ⟨low, rfl, hlow⟩
    quantiles := .cons ⟨hhigh, rfl⟩ .nil
    frequentValues := .cons ⟨hhigh, rfl⟩ (.cons ⟨hlow, rfl⟩ .nil)
    cardinality := by simp [twoRows, hne] }

/-! ## Exact bins -/

/-- The exact bin of a value. -/
def exactBin (k : Kind) (v : k.Value) (n : ℕ) : Bin :=
  ⟨Literal.write k v, Literal.write k v, n, true⟩

theorem ofBucket_single (v : k.Value) (n : ℕ) : Bin.ofBucket k (.single v n) = exactBin k v n :=
  congrArg (Bin.mk _ _ n) Domain.same_refl

/-- The exact bins are those of the exact buckets. -/
theorem exactBins_ofHistogram :
    (ofHistogram k c h).exactBins = h.exactPart.buckets.map (Bin.ofBucket k) := by
  rw [exactBins, ofHistogram, List.filter_map]
  rfl

section Lattice

variable (hdec : ∀ scale, k ≠ .decimal scale) (hstr : k ≠ .string)
  (hd : Describes k M c minimum rows tallies)
include hdec hstr hd

/-- **The histogram of the quantiles can be refined**, and the profile is that of the outcome. -/
theorem exists_refined (hh : ofQuantiles k.domain minimum rows = .ok h) :
    ∃ s, (h.refine tallies).result = .ok s ∧ (attempt k c).result = .ok (ofHistogram k c s) := by
  obtain ⟨s, hs⟩ := Histogram.exists_refine_of_summarizes (k.lattice hstr) (Kind.onGrid hdec)
    (Kind.strict hdec) hd.toSummarizes k.span_pos hh
  exact ⟨s, hs, hd.attempt_of_ok hh hs⟩

/-- **A profile is enumerated** exactly where the first boundary is not the minimum and no value is
cut off. -/
theorem isEnumerated_iff_of_describes (hp : (attempt k c).result = .ok p) : p.isEnumerated = true ↔
    (∀ q, rows.head? = some q → q.boundary ≠ minimum) ∧
      ∀ v, ¬ CutOff k.domain M rows v := by
  have hM := hd.toSummarizes
  cases hh : ofQuantiles k.domain minimum rows with
  | error f => cases (hd.attempt_of_error hh).symm.trans hp
  | ok h =>
    obtain ⟨s, hs, hp'⟩ := exists_refined hdec hstr hd hh
    obtain rfl := Except.ok.inj (hp'.symm.trans hp)
    have hpos : 0 < M.dedup.card :=
      Multiset.card_pos_iff_exists_mem.2 ⟨minimum, Multiset.mem_dedup.2 hM.minimum_mem⟩
    rw [← Histogram.length_exactPart_eq_iff (k.lattice hstr) (Kind.onGrid hdec) (Kind.strict hdec)
      hM hh k.span_pos hs, isEnumerated, exactBins_ofHistogram, List.length_map, ofHistogram,
      hd.cardinality, Bool.and_eq_true, decide_eq_true_eq, beq_iff_eq]
    exact and_iff_right_of_imp fun hlength => hlength ▸ hpos

/-- **A column that describes a collection has a profile**, unless its minimum is the first boundary
and has no predecessor.  Every distinct value has an exact bin, and these are all exact bins if the
first boundary is not the minimum and no value is cut off. -/
theorem exists_profile_of_describes (hstart : ∀ q, rows.head? = some q → q.boundary = minimum →
    (k.domain.previous? minimum).isSome = true) :
    ∃ p, (attempt k c).result = .ok p ∧
      (∀ v ∈ M, exactBin k v (M.count v) ∈ p.exactBins) ∧
      ((∀ q, rows.head? = some q → q.boundary ≠ minimum) → (∀ v, ¬ CutOff k.domain M rows v) →
        p.isEnumerated = true ∧
        ∃ values : List k.Value, values.Pairwise (fun v w => k.domain.lt v w = true) ∧
          (values : Multiset k.Value) = M.dedup ∧
          p.exactBins = values.map fun v => exactBin k v (M.count v)) := by
  have hD : k.domain.Strict := Kind.strict hdec
  have hM := hd.toSummarizes
  obtain ⟨h, hh⟩ :=
    Histogram.exists_ofQuantiles (k.lattice hstr) (Kind.onGrid hdec) hD hM hstart
  obtain ⟨s, hs, hp⟩ := exists_refined hdec hstr hd hh
  refine ⟨ofHistogram k c s, hp, fun v hv => ?_, fun hfirst hcut => ⟨?_, ?_⟩⟩
  · obtain ⟨t, ht, rfl⟩ := hM.mem_iff.2 hv
    rw [exactBins_ofHistogram, ← hM.counts t ht, ← ofBucket_single]
    exact List.mem_map_of_mem (Histogram.single_mem_exactPart k.span_pos hs ht)
  · exact (isEnumerated_iff_of_describes hdec hstr hd hp).2 ⟨hfirst, hcut⟩
  · have hsorted : Histogram.Ascending k.domain (Histogram.sorted k.domain tallies) :=
      Histogram.ascending_sorted_iff.2 (hM.not_repeats hD)
    refine ⟨(Histogram.sorted k.domain tallies).map Tally.value, List.pairwise_map.2 hsorted,
      ?_, ?_⟩
    · rw [← hM.values]
      exact Multiset.coe_eq_coe.2 ((Histogram.sorted_perm tallies).map _)
    · rw [exactBins_ofHistogram, Histogram.exactPart_of_refine hD hM k.span_pos hh hs hfirst hcut,
        List.map_map, List.map_map]
      refine List.map_congr_left fun t ht => ?_
      rw [Function.comp_apply, Function.comp_apply, ofBucket_single,
        hM.counts t (Histogram.mem_sorted.1 ht)]

/-- Where one of the two conditions fails, there is a profile that is not enumerated. -/
theorem exists_profile_not_isEnumerated
    (hstart : ∀ q, rows.head? = some q → q.boundary = minimum →
      (k.domain.previous? minimum).isSome = true)
    (hnot : ¬ ((∀ q, rows.head? = some q → q.boundary ≠ minimum) ∧
      ∀ v, ¬ CutOff k.domain M rows v)) :
    ∃ p, (attempt k c).result = .ok p ∧ p.isEnumerated = false := by
  obtain ⟨p, hp, _⟩ := exists_profile_of_describes hdec hstr hd hstart
  refine ⟨p, hp, Bool.eq_false_iff.2 fun henum => hnot ?_⟩
  exact (isEnumerated_iff_of_describes hdec hstr hd hp).1 henum

end Lattice

/-- **Either condition can fail**: the profile of a column of a single number and that of a column
whose two numbers leave one between them are not enumerated. -/
theorem exists_not_isEnumerated : ∃ one three : Whole,
    (one.val = 1 ∧ Describes .integer {one} (oneRow "1") one [⟨one, 1⟩] [⟨one, 1⟩] ∧
      ∃ p, (attempt .integer (oneRow "1")).result = .ok p ∧ p.isEnumerated = false) ∧
    (three.val = 3 ∧
      Describes .integer {one, three} (twoRows "1" "3") one [⟨three, 2⟩] [⟨three, 1⟩, ⟨one, 1⟩] ∧
      ∃ p, (attempt .integer (twoRows "1" "3")).result = .ok p ∧ p.isEnumerated = false) := by
  let one : Whole := ⟨1, by decide, by decide⟩
  let three : Whole := ⟨3, by decide, by decide⟩
  have hone : Literal.read .integer "1" = .ok one := by rfl
  have hthree : Literal.read .integer "3" = .ok three := by rfl
  have hdec : ∀ scale, Kind.integer ≠ .decimal scale := nofun
  have hstr : Kind.integer ≠ .string := nofun
  refine ⟨one, three, ⟨rfl, describes_oneRow hone, ?_⟩,
    ⟨rfl, describes_twoRows hone hthree (by decide), ?_⟩⟩
  · refine exists_profile_not_isEnumerated hdec hstr (describes_oneRow hone) (fun _ _ _ => rfl) ?_
    exact fun h => h.1 _ rfl rfl
  · refine exists_profile_not_isEnumerated hdec hstr (describes_twoRows hone hthree (by decide))
      (fun _ _ _ => rfl) fun h => h.2 ⟨2, by decide, by decide⟩ ?_
    -- The number between the two is cut off.
    exact ⟨by decide, .inl ⟨one, by decide, rfl⟩, .inl ⟨three, by decide, rfl⟩⟩

/-! ## Lines of whole numbers -/

/-- A text of digits and hyphens stands as it is. -/
theorem encode_eq_self {cs : List Char} (h : ∀ c ∈ cs, c.isDigit = true ∨ c = '-') :
    Field.encode cs = cs := by
  have hplain : ∀ c ∈ cs, c ≠ Quoted.mark ∧ c ≠ Field.separator ∧ c ≠ '\n' ∧ c ≠ '\r' := by
    intro c hc
    refine ⟨?_, ?_, ?_, ?_⟩ <;> rintro rfl <;> exact absurd (h _ hc) (by decide)
  refine if_neg ?_
  simp only [Field.needsQuotes, Bool.or_eq_true, List.any_eq_true, beq_iff_eq, not_or, not_exists,
    not_and]
  refine ⟨fun hhead => (hplain _ (List.mem_of_head? hhead)).1 rfl, fun c hc => ?_⟩
  exact ⟨⟨(hplain c hc).2.1, (hplain c hc).2.2.1⟩, (hplain c hc).2.2.2⟩

/-- The line of a whole number, without its end. -/
def wholeLine (p : Profile) (v : Whole) (n : ℕ) : List Char :=
  v.chars ++ '|' :: (p.share n).chars

theorem exactLine_exactBin (p : Profile) (v : Whole) (n : ℕ) :
    p.exactLine (exactBin .integer v n) = p.wholeLine v n ++ ['\n'] := by
  have htext : (exactBin .integer v n).lower.toList = v.chars := String.toList_ofList
  have hfield : Field.encode v.chars = v.chars :=
    encode_eq_self Numeral.isDigit_or_eq_of_mem_signedDigits
  rw [exactLine, htext, hfield, wholeLine, line]
  simp [exactBin]

/-- **A line ends only where it should.** -/
theorem not_mem_wholeLine (p : Profile) (v : Whole) (n : ℕ) : '\n' ∉ p.wholeLine v n := by
  rw [wholeLine, List.mem_append, List.mem_cons]
  rintro (hc | hc | hc)
  · exact absurd (Numeral.isDigit_or_eq_of_mem_signedDigits _ hc) (by decide)
  · exact absurd hc (by decide)
  · exact absurd (Binary64.isDigit_or_eq_of_mem_chars _ hc) (by decide)

/-- The domain file of an enumerated profile of whole numbers. -/
theorem domainFile?_of_exactBins {p : Profile} {values : List Whole} {count : Whole → ℕ}
    (henum : p.isEnumerated = true)
    (hbins : p.exactBins = values.map fun v => exactBin .integer v (count v)) :
    p.domainFile? = some (String.ofList
      ((values.map fun v => p.wholeLine v (count v)).flatMap (· ++ ['\n']))) := by
  rw [domainFile?, if_pos henum, exactLines, hbins, List.flatMap_map, List.flatMap_map]
  simp only [exactLine_exactBin]

/-! ## Columns of whole numbers -/

/-- Only the least whole number has no predecessor. -/
theorem previous?_eq_none_iff (v : Whole) :
    Domain.integer.previous? v = none ↔ v.val = -9223372036854775808 :=
  Whole.numbering.previous?_eq_none_iff

/-- **A column of whole numbers that describes a collection** has a profile with an exact bin for
each distinct value, unless its minimum is the first boundary and the least number of all.  If the
first boundary is above the minimum and no other number is cut off, the column is enumerated: the
exact bins are the distinct values in ascending order, and the domain file has one line for each. -/
theorem enumerates_of_describes {M : Multiset Whole} {c : Column} {minimum : Whole}
    {rows : List (Quantile Whole)} {tallies : List (Tally Whole)}
    (hd : Describes .integer M c minimum rows tallies) :
    (rows.head?.map Quantile.boundary = some minimum → minimum.val = -9223372036854775808 →
      (attempt .integer c).result =
        .error (.inconsistent c.name .integer (.neighbour (.noPrevious minimum)))) ∧
    (rows.head?.map Quantile.boundary ≠ some minimum ∨ minimum.val ≠ -9223372036854775808 →
      ∃ p, (attempt .integer c).result = .ok p ∧
        (∀ v ∈ M, exactBin .integer v (M.count v) ∈ p.exactBins) ∧
        (rows.head?.map Quantile.boundary ≠ some minimum →
          (∀ v, ¬ CutOff Domain.integer M rows v) →
          ∃ values : List Whole, values.Pairwise (fun v w => v.val < w.val) ∧
            (values : Multiset Whole) = M.dedup ∧
            p.exactBins = values.map (fun v => exactBin .integer v (M.count v)) ∧
            p.isEnumerated = true ∧
            ∃ lines : List (List Char), p.domainFile? =
                some (String.ofList (lines.flatMap (· ++ ['\n']))) ∧
              lines = values.map (fun v => p.wholeLine v (M.count v)) ∧
              ∀ l ∈ lines, '\n' ∉ l)) := by
  have hhead : ∀ q, rows.head? = some q → q.boundary = minimum →
      rows.head?.map Quantile.boundary = some minimum := by
    rintro q hq rfl
    rw [hq, Option.map_some]
  constructor
  · intro hfirst hleast
    obtain ⟨q, hq, rfl⟩ := Option.map_eq_some_iff.1 hfirst
    obtain ⟨qs, rfl⟩ := List.head?_eq_some_iff.1 hq
    exact hd.attempt_of_error (Histogram.ofQuantiles_of_previous?_eq_none Domain.same_refl
      ((previous?_eq_none_iff _).2 hleast))
  · intro hstart
    have hdec : ∀ scale, Kind.integer ≠ .decimal scale := nofun
    have hstr : Kind.integer ≠ .string := nofun
    obtain ⟨p, hp, hall, henum⟩ :=
      exists_profile_of_describes hdec hstr hd fun q hq hqm => by
        have hleast := hstart.resolve_left (not_not_intro (hhead q hq hqm))
        exact Option.isSome_iff_ne_none.2 ((previous?_eq_none_iff _).not.2 hleast)
    refine ⟨p, hp, hall, fun hfirst hcut => ?_⟩
    obtain ⟨henumerated, values, hordered, hvalues, hbins⟩ :=
      henum (fun q hq hqm => hfirst (hhead q hq hqm)) hcut
    refine ⟨values, hordered.imp fun hlt => Numbering.domain_lt.1 hlt, hvalues, hbins, henumerated,
      _, domainFile?_of_exactBins henumerated hbins, rfl, ?_⟩
    intro l hl
    obtain ⟨v, _, rfl⟩ := List.mem_map.1 hl
    exact not_mem_wholeLine p v _

/-- **A column of the least whole number alone has no profile**: its minimum cannot be moved down. -/
theorem not_enumerated_of_describes : ∃ least : Whole, least.val = -9223372036854775808 ∧
    Describes .integer {least} (oneRow "-9223372036854775808") least [⟨least, 1⟩] [⟨least, 1⟩] ∧
    ¬ ∃ p, (attempt .integer (oneRow "-9223372036854775808")).result = .ok p := by
  let least : Whole := ⟨-9223372036854775808, by decide, by decide⟩
  have hleast : Literal.read .integer "-9223372036854775808" = .ok least := by rfl
  refine ⟨least, rfl, describes_oneRow hleast, ?_⟩
  have hf : ofQuantiles Domain.integer least [⟨least, 1⟩] =
      .error (.neighbour (.noPrevious least)) :=
    Histogram.ofQuantiles_of_previous?_eq_none Domain.same_refl ((previous?_eq_none_iff _).2 rfl)
  rintro ⟨p, hp⟩
  cases ((describes_oneRow hleast).attempt_of_error hf).symm.trans hp

/-- A column of two numbers between which there is no other is enumerated. -/
theorem enumerates_of_describes_pair : ∃ (one two : Whole) (p : Profile),
    one.val = 1 ∧ two.val = 2 ∧
    Describes .integer {one, two} (twoRows "1" "2") one [⟨two, 2⟩] [⟨two, 1⟩, ⟨one, 1⟩] ∧
    (attempt .integer (twoRows "1" "2")).result = .ok p ∧ p.isEnumerated = true ∧
    ∃ text, p.domainFile? = some text := by
  let one : Whole := ⟨1, by decide, by decide⟩
  let two : Whole := ⟨2, by decide, by decide⟩
  have hone : Literal.read .integer "1" = .ok one := by rfl
  have htwo : Literal.read .integer "2" = .ok two := by rfl
  have hd : Describes .integer {one, two} (twoRows "1" "2") one [⟨two, 2⟩]
      [⟨two, 1⟩, ⟨one, 1⟩] := describes_twoRows hone htwo (by decide)
  have hcut : ∀ v, ¬ CutOff Domain.integer {one, two} [⟨two, 2⟩] v := by
    have hmem : ∀ u ∈ ({one, two} : Multiset Whole), u.val = 1 ∨ u.val = 2 := by decide
    rintro v ⟨hnot, hafter, hbefore⟩
    have hlow : v.val = 2 ∨ v.val = 3 := by
      obtain ⟨u, hu, hnext⟩ | ⟨q, hq, hnext⟩ := hafter
      · have hval : v.val = u.val + 1 := Numbering.index_of_next? hnext
        have := hmem u hu
        omega
      · rw [List.mem_singleton.1 hq] at hnext
        exact .inr (Numbering.index_of_next? hnext)
    obtain ⟨u, hu, hprev⟩ | ⟨q, hq, rfl⟩ := hbefore
    · have hval : v.val = u.val - 1 := Numbering.index_of_previous? hprev
      have := hmem u hu
      omega
    · rw [List.mem_singleton.1 hq] at hnot
      exact hnot (by decide)
  obtain ⟨p, hp, _, henum⟩ := (enumerates_of_describes hd).2 (.inl (by decide))
  obtain ⟨_, _, _, _, henumerated, _, hfile, _⟩ := henum (by decide) hcut
  exact ⟨one, two, p, rfl, rfl, hd, hp, henumerated, _, hfile⟩

end CatalogStats.Profile
