import CatalogStats.Profile.Distribution
import CatalogStats.Proofs.Number.Characters
import CatalogStats.Proofs.Preliminaries
import CatalogStats.Storage.Path

/-!
# Proofs/Profile/Reading — a distribution file can be read back

A distribution file is a list of records, each ended by the only line break in it
(`distribution_eq_lines`).  `Field.read?` reads one field of a record and says what follows it;
`read?_encode_append` shows that it undoes `Field.encode` whatever the field holds, vertical bars,
quotes and line breaks included.  So `Listing.ofText?` finds the bounds and shares of every bin in
the file of every profile, and the domain file is the block of its exact values
(`ofText?_distribution`).
-/

namespace CatalogStats

/-! ## Fields -/

namespace Field

/-- Puts a character in front of what was read. -/
def prepend (c : Char) (r : Option (List Char × List Char)) : Option (List Char × List Char) :=
  r.map fun (text, rest) => (c :: text, rest)

/-- The character that a backslash and a letter stand for. -/
def unescaped : Char → Char
  | 'n' => '\n'
  | 'r' => '\r'
  | c => c

/-- The rest of a text between quotes, and what follows the closing quote. -/
def readQuoted : List Char → Option (List Char × List Char)
  | '\x27' :: '\x27' :: cs => prepend Quoted.mark (readQuoted cs)
  | '\x27' :: cs => some ([], cs)
  | '\\' :: c :: cs => prepend (unescaped c) (readQuoted cs)
  | c :: cs => prepend c (readQuoted cs)
  | [] => none

/-- **The field at the start of a record**, and what follows it. -/
def read? : List Char → Option (List Char × List Char)
  | '\x27' :: cs => readQuoted cs
  | cs => some (cs.takeWhile (· != separator), cs.dropWhile (· != separator))

variable {c : Char} {cs rest : List Char}

/-- A character between quotes is read back. -/
theorem readQuoted_escaped_append (c : Char) (cs : List Char) :
    readQuoted (escaped c ++ cs) = prepend c (readQuoted cs) := by
  unfold escaped
  split
  case h_5 hmark hslash _ _ =>
    rw [List.singleton_append, readQuoted]
    · rintro _ rfl
      exact absurd rfl hmark
    · rintro rfl
      exact absurd rfl hmark
    · rintro _ _ rfl
      exact absurd rfl hslash
  all_goals rfl

/-- …and so is a whole text, up to a quote that no other follows. -/
theorem readQuoted_flatMap_escaped (h : rest.head? ≠ some Quoted.mark) :
    readQuoted (cs.flatMap escaped ++ Quoted.mark :: rest) = some (cs, rest) := by
  induction cs with
  | nil =>
    rw [List.flatMap_nil, List.nil_append, readQuoted]
    rintro _ rfl
    exact h rfl
  | cons c cs ih =>
    rw [List.flatMap_cons, List.append_assoc, readQuoted_escaped_append, ih]
    rfl

theorem needsQuotes_eq_false_iff : needsQuotes cs = false ↔
    cs.head? ≠ some Quoted.mark ∧ ∀ c ∈ cs, c ≠ separator ∧ c ≠ '\n' ∧ c ≠ '\r' := by
  simp only [needsQuotes, Bool.or_eq_false_iff, beq_eq_false_iff_ne, List.any_eq_false,
    Bool.or_eq_true, beq_iff_eq, not_or, and_assoc, ne_eq]

/-- A field without quotes ends at the next vertical bar. -/
theorem read?_append_of_plain (hhead : cs.head? ≠ some Quoted.mark)
    (hplain : ∀ c ∈ cs, c ≠ separator) :
    read? (cs ++ separator :: rest) = some (cs, separator :: rest) := by
  have hpass : ∀ c ∈ cs, (c != separator) = true := fun c hc => bne_iff_ne.2 (hplain c hc)
  rw [read?]
  · rw [List.takeWhile_append_of_pos hpass, List.dropWhile_append_of_pos hpass]
    simp
  · intro ds hds
    cases cs with
    | nil => cases hds
    | cons c cs => exact hhead (congrArg some (List.cons.inj hds).1)

/-- **Reading undoes encoding**, whatever the text. -/
theorem read?_encode_append (cs rest : List Char) :
    read? (encode cs ++ separator :: rest) = some (cs, separator :: rest) := by
  rw [encode]
  split
  case isTrue =>
    rw [List.append_assoc, List.cons_append, read?]
    exact readQuoted_flatMap_escaped fun h => absurd (Option.some.inj h) (by decide)
  case isFalse h =>
    obtain ⟨hhead, hplain⟩ := needsQuotes_eq_false_iff.1 (Bool.eq_false_iff.2 h)
    exact read?_append_of_plain hhead fun c hc => (hplain c hc).1

example : read? "'it''s|x'|0.5".toList = some ("it's|x".toList, "|0.5".toList) := by decide

theorem not_break_of_mem_escaped {d : Char} (h : d ∈ escaped c) : d ≠ '\n' ∧ d ≠ '\r' := by
  unfold escaped at h
  split at h
  case h_5 _ _ hn hr =>
    obtain rfl := List.mem_singleton.1 h
    exact ⟨hn, hr⟩
  all_goals
    constructor <;> rintro rfl <;> exact absurd h (by decide)

/-- **A field does not break its line.** -/
theorem not_break_of_mem_encode (h : c ∈ encode cs) : c ≠ '\n' ∧ c ≠ '\r' := by
  rw [encode] at h
  split at h
  case isTrue =>
    rw [List.cons_append, List.mem_cons, List.mem_append, List.mem_singleton] at h
    rcases h with rfl | h | rfl
    · decide
    · obtain ⟨d, _, hc⟩ := List.mem_flatMap.1 h
      exact not_break_of_mem_escaped hc
    · decide
  case isFalse hq =>
    exact ((needsQuotes_eq_false_iff.1 (Bool.eq_false_iff.2 hq)).2 c h).2

end Field

namespace Profile

open CatalogStats.Field (separator)

variable {p : Profile} {b : Bin} {r : List Char}

/-! ## Records -/

/-- A figure under its name, without the end of its line. -/
def headerRecord (name : String) (figure : List Char) : List Char := name.toList ++ '=' :: figure

/-- The record of an exact value. -/
def exactRecord (p : Profile) (b : Bin) : List Char :=
  Field.encode b.lower.toList ++ separator :: (p.share b.frequency).chars

/-- The record of a range. -/
def rangeRecord (p : Profile) (b : Bin) : List Char :=
  Field.encode b.lower.toList ++ separator ::
    (Field.encode b.upper.toList ++ separator :: (p.share b.frequency).chars)

/-- The three records of figures. -/
def headerRecords (p : Profile) : List (List Char) :=
  [headerRecord "numberOfExactValues" (Numeral.digits p.exactBins.length),
    headerRecord "numberOfBins" (Numeral.digits p.rangeBins.length),
    headerRecord "nullProbability" p.nullShare.chars]

/-- **The records of a distribution file.** -/
def records (p : Profile) : List (List Char) :=
  p.headerRecords ++ p.exactBins.map p.exactRecord ++ p.rangeBins.map p.rangeRecord

/-- The text of records: each ends with a line break. -/
def lines (records : List (List Char)) : List Char := records.flatMap (· ++ ['\n'])

theorem lines_append (rs ss : List (List Char)) : lines (rs ++ ss) = lines rs ++ lines ss :=
  List.flatMap_append

/-- The lines of the exact values are those of their records. -/
theorem exactLines_eq (p : Profile) : p.exactLines = lines (p.exactBins.map p.exactRecord) := by
  have hline : p.exactLine = fun b => p.exactRecord b ++ ['\n'] :=
    funext fun b => by simp [exactLine, line, exactRecord]
  rw [lines, List.flatMap_map, exactLines, hline]

/-- …and so it is for the ranges. -/
theorem rangeLines_eq (p : Profile) : p.rangeLines = lines (p.rangeBins.map p.rangeRecord) := by
  have hline : p.rangeLine = fun b => p.rangeRecord b ++ ['\n'] :=
    funext fun b => by simp [rangeLine, line, rangeRecord]
  rw [lines, List.flatMap_map, rangeLines, hline]

theorem headers_eq (p : Profile) : p.headers = lines p.headerRecords := by
  simp only [headers, header, lines, headerRecords, headerRecord, List.flatMap_cons,
    List.flatMap_nil, List.append_assoc, List.cons_append, List.append_nil]

/-- **A distribution file is the lines of its records.** -/
theorem distribution_eq_lines (p : Profile) : p.distribution.toList = lines p.records := by
  rw [distribution, String.toList_ofList, headers_eq, exactLines_eq, rangeLines_eq, records,
    lines_append, lines_append]

theorem length_records (p : Profile) :
    p.records.length = 3 + p.exactBins.length + p.rangeBins.length := by
  rw [records, List.length_append, List.length_append, List.length_map, List.length_map]
  rfl

/-- The records of the exact values follow the three records of figures. -/
theorem exactRecords_eq (p : Profile) :
    (p.records.drop 3).take p.exactBins.length = p.exactBins.map p.exactRecord := by
  rw [records, List.append_assoc]
  exact List.take_left' (List.length_map _)

/-! ## Line breaks -/

/-- A text without line breaks. -/
def Unbroken (cs : List Char) : Prop := ∀ c ∈ cs, c ≠ '\n' ∧ c ≠ '\r'

instance (cs : List Char) : Decidable (Unbroken cs) :=
  List.decidableBAll (fun c => c ≠ '\n' ∧ c ≠ '\r') cs

theorem unbroken_chars (x : Binary64) : Unbroken x.chars := by
  intro c hc
  constructor <;> rintro rfl <;> exact absurd (Binary64.isDigit_or_eq_of_mem_chars _ hc) (by decide)

theorem unbroken_digits (n : ℕ) : Unbroken (Numeral.digits n) := by
  intro c hc
  constructor <;> rintro rfl <;> exact absurd (Numeral.isDigit_of_mem_digits _ hc) (by decide)

/-- Two texts with a visible character between them. -/
theorem Unbroken.append_cons {c : Char} {cs ds : List Char} (hcs : Unbroken cs)
    (hc : c ≠ '\n' ∧ c ≠ '\r') (hds : Unbroken ds) : Unbroken (cs ++ c :: ds) :=
  List.forall_mem_append.2 ⟨hcs, List.forall_mem_cons.2 ⟨hc, hds⟩⟩

theorem unbroken_encode (cs : List Char) : Unbroken (Field.encode cs) :=
  fun _ => Field.not_break_of_mem_encode

theorem unbroken_exactRecord (p : Profile) (b : Bin) : Unbroken (p.exactRecord b) :=
  (unbroken_encode _).append_cons (by decide) (unbroken_chars _)

theorem unbroken_rangeRecord (p : Profile) (b : Bin) : Unbroken (p.rangeRecord b) :=
  (unbroken_encode _).append_cons (by decide)
    ((unbroken_encode _).append_cons (by decide) (unbroken_chars _))

/-- **A record is a single line.** -/
theorem unbroken_of_mem_records (h : r ∈ p.records) : Unbroken r := by
  rw [records, List.mem_append, List.mem_append] at h
  rcases h with (h | h) | h
  · have hname : ∀ name ∈ ["numberOfExactValues", "numberOfBins", "nullProbability"],
        Unbroken name.toList := by decide
    simp only [headerRecords, List.mem_cons, List.not_mem_nil, or_false] at h
    rcases h with rfl | rfl | rfl
    · exact (hname _ (by decide)).append_cons (by decide) (unbroken_digits _)
    · exact (hname _ (by decide)).append_cons (by decide) (unbroken_digits _)
    · exact (hname _ (by decide)).append_cons (by decide) (unbroken_chars _)
  · obtain ⟨b, _, rfl⟩ := List.mem_map.1 h
    exact unbroken_exactRecord p b
  · obtain ⟨b, _, rfl⟩ := List.mem_map.1 h
    exact unbroken_rangeRecord p b

theorem not_mem_of_mem_records (h : r ∈ p.records) : '\n' ∉ r := fun hn =>
  (unbroken_of_mem_records h _ hn).1 rfl

/-- Each line has one line break, at its end. -/
theorem count_lines {rs : List (List Char)} (h : ∀ r ∈ rs, '\n' ∉ r) :
    (lines rs).count '\n' = rs.length := by
  induction rs with
  | nil => rfl
  | cons r rs ih =>
    obtain ⟨hr, hrs⟩ := List.forall_mem_cons.1 h
    have hcount : lines (r :: rs) = r ++ '\n' :: lines rs := by simp [lines]
    rw [hcount, List.count_append, List.count_eq_zero_of_not_mem hr, List.count_cons_self, ih hrs,
      List.length_cons, Nat.zero_add]

/-- **Lines are divided where they end.** -/
theorem splitAt_lines {rs : List (List Char)} (h : ∀ r ∈ rs, '\n' ∉ r) :
    splitAt '\n' (lines rs) = rs ++ [[]] := by
  induction rs with
  | nil => rfl
  | cons r rs ih =>
    obtain ⟨hr, hrs⟩ := List.forall_mem_cons.1 h
    have hcons : lines (r :: rs) = r ++ '\n' :: lines rs := by simp [lines]
    rw [hcons, splitAt_append_cons, splitAt_of_not_mem hr, ih hrs]
    rfl

/-! ## Reading -/

/-- What a record after the figures tells. -/
inductive Entry where
  | value (text share : String)
  | range (lower upper share : String)
  deriving Repr, DecidableEq

namespace Entry

/-- **Reads a record.**  A share contains no vertical bar, so one after the first field belongs to a
range. -/
def ofRecord? (r : List Char) : Option Entry := do
  match ← Field.read? r with
  | (lower, '|' :: rest) =>
    if separator ∈ rest then
      match ← Field.read? rest with
      | (upper, '|' :: share) =>
        some (.range (String.ofList lower) (String.ofList upper) (String.ofList share))
      | _ => none
    else some (.value (String.ofList lower) (String.ofList rest))
  | _ => none

/-- The value and the share of an exact value. -/
def value? : Entry → Option (String × String)
  | value text share => some (text, share)
  | range .. => none

/-- The bounds and the share of a range. -/
def range? : Entry → Option (String × String × String)
  | value .. => none
  | range lower upper share => some (lower, upper, share)

end Entry

/-- What a distribution file says of the values of a column. -/
structure Listing where
  values : List (String × String)
  ranges : List (String × String × String)
  deriving Repr, DecidableEq

/-- **Reads a distribution file**: the records after its first three lines. -/
def Listing.ofText? (text : String) : Option Listing := do
  let entries ← ((splitAt '\n' text.toList).dropLast.drop 3).mapM Entry.ofRecord?
  some ⟨entries.filterMap Entry.value?, entries.filterMap Entry.range?⟩

theorem separator_not_mem_chars (x : Binary64) : separator ∉ x.chars := fun h =>
  absurd (Binary64.isDigit_or_eq_of_mem_chars _ h) (by decide)

theorem ofRecord?_exactRecord (p : Profile) (b : Bin) :
    Entry.ofRecord? (p.exactRecord b) = some (.value b.lower (p.share b.frequency).text) := by
  rw [Entry.ofRecord?, exactRecord, Field.read?_encode_append]
  change (if separator ∈ (p.share b.frequency).chars then _ else _) = _
  rw [if_neg (separator_not_mem_chars _), String.ofList_toList]
  rfl

theorem ofRecord?_rangeRecord (p : Profile) (b : Bin) : Entry.ofRecord? (p.rangeRecord b) =
    some (.range b.lower b.upper (p.share b.frequency).text) := by
  rw [Entry.ofRecord?, rangeRecord, Field.read?_encode_append]
  change (if separator ∈ _ ++ separator :: _ then _ else _) = _
  rw [if_pos (List.mem_append_right _ List.mem_cons_self), Field.read?_encode_append]
  change some (Entry.range _ _ _) = _
  rw [String.ofList_toList, String.ofList_toList]
  rfl

/-- **The reader finds every bin.** -/
theorem ofText?_eq (p : Profile) : Listing.ofText? p.distribution = some {
    values := p.exactBins.map fun b => (b.lower, (p.share b.frequency).text)
    ranges := p.rangeBins.map fun b => (b.lower, b.upper, (p.share b.frequency).text) } := by
  have hrecords : p.records.drop 3 =
      p.exactBins.map p.exactRecord ++ p.rangeBins.map p.rangeRecord := by
    rw [records, List.append_assoc]
    rfl
  rw [Listing.ofText?, distribution_eq_lines, splitAt_lines fun _ => not_mem_of_mem_records,
    List.dropLast_concat, hrecords, List.mapM_append,
    mapM_map_eq_some fun b _ => ofRecord?_exactRecord p b,
    mapM_map_eq_some fun b _ => ofRecord?_rangeRecord p b]
  change some (Listing.mk _ _) = _
  simp only [List.filterMap_append, List.filterMap_map]
  simp [Function.comp_def, Entry.value?, Entry.range?]

/-- **A distribution file can be read back.**  It has three records of figures and one for each bin,
every one a line of its own; the records tell the bounds of every bin, as they were, and its share;
and a domain file is the block of the exact values in it. -/
theorem ofText?_distribution (p : Profile) :
    '\r' ∉ p.distribution.toList ∧
    p.distribution.toList.count '\n' = 3 + p.exactBins.length + p.rangeBins.length ∧
    (∃ records : List (List Char),
      records.length = 3 + p.exactBins.length + p.rangeBins.length ∧
      (∀ r ∈ records, '\n' ∉ r) ∧
      p.distribution.toList = records.flatMap (· ++ ['\n']) ∧
      ∀ text, p.domainFile? = some text →
        text.toList = ((records.drop 3).take p.exactBins.length).flatMap (· ++ ['\n'])) ∧
    Listing.ofText? p.distribution = some {
      values := p.exactBins.map fun b => (b.lower, (p.share b.frequency).text)
      ranges := p.rangeBins.map fun b => (b.lower, b.upper, (p.share b.frequency).text) } := by
  have hbreak : ∀ r ∈ p.records, '\n' ∉ r := fun _ => not_mem_of_mem_records
  refine ⟨fun hr => ?_, ?_, ⟨p.records, length_records p, hbreak, distribution_eq_lines p, ?_⟩, ?_⟩
  · rw [distribution_eq_lines, lines] at hr
    obtain ⟨r, hmem, hin⟩ := List.mem_flatMap.1 hr
    rcases List.mem_append.1 hin with hin | hin
    · exact (unbroken_of_mem_records hmem _ hin).2 rfl
    · exact absurd hin (by decide)
  · rw [distribution_eq_lines, count_lines hbreak, length_records]
  · intro text htext
    rw [domainFile?] at htext
    split at htext
    case isTrue =>
      obtain rfl := Option.some.inj htext
      rw [String.toList_ofList, exactRecords_eq, exactLines_eq]
      rfl
    case isFalse => cases htext
  · exact ofText?_eq p

end Profile

end CatalogStats
