import CatalogStats.Catalog.Literal
import CatalogStats.Proofs.Calendar.Reading
import CatalogStats.Proofs.Domain.Steps
import CatalogStats.Proofs.Number.DecimalText

/-!
# Proofs/Catalog/Literal — reading undoes writing

Numbers and dates are written without blanks and quotes, so that trimming and unquoting leave their
texts alone (`Numeric.bare_eq_self`).  Each kind of value is read back from its own text, and from that
text between quotes (`read_write`).
-/

namespace CatalogStats.Literal

open Text

variable {cs : List Char}

/-- The characters with which numbers and dates are written. -/
def Numeric (cs : List Char) : Prop := ∀ c ∈ cs, c.isDigit = true ∨ c ∈ ['-', '+', '.']

theorem Numeric.not_blank (h : Numeric cs) : ∀ c ∈ cs, isBlank c = false := by
  intro c hc
  obtain hdigit | hsign := h c hc
  · exact isBlank_of_isDigit hdigit
  · obtain rfl | rfl | rfl : c = '-' ∨ c = '+' ∨ c = '.' := by simpa using hsign
    · exact rfl
    · exact rfl
    · exact rfl

theorem Numeric.not_enclosed (h : Numeric cs) : ¬ Quoted.Enclosed cs := by
  rintro ⟨_, hhead, _⟩
  obtain hdigit | hsign := h _ (List.mem_of_head? hhead)
  · cases hdigit
  · exact absurd hsign (by decide)

/-- **A number or a date is the same with quotes and without.** -/
theorem Numeric.bare_eq_self (h : Numeric cs) : bare cs = cs := by
  have htrim := trim_eq_self h.not_blank
  rw [bare, htrim, Quoted.decode_eq_self h.not_enclosed, htrim]

theorem Numeric.bare_encode (h : Numeric cs) : bare (Quoted.encode cs) = cs := by
  rw [bare, Quoted.trim_encode, Quoted.decode_encode, trim_eq_self h.not_blank]

/-! ## Reading what was written -/

/-- A text is read as a value that is the same as another. -/
def ReadsAs (k : Kind) (text : String) (v : k.Value) : Prop :=
  ∃ w, read k text = .ok w ∧ k.domain.same w v = true

theorem readsAs_of_readChars {k : Kind} {text : String} {v w : k.Value}
    (h : readChars k text.toList = .ok w) (hsame : k.domain.same w v = true) : ReadsAs k text v :=
  ⟨w, by rw [read, h], hsame⟩

/-- The text of a value of any kind but the texts reads as the value with quotes and without. -/
theorem readsAs_of_bare {k : Kind} {text : String} {v : k.Value} (hnum : Numeric text.toList)
    (h : ∀ cs, bare cs = text.toList → ∃ w, readChars k cs = .ok w ∧ k.domain.same w v = true) :
    ReadsAs k (String.ofList (Quoted.encode text.toList)) v ∧ ReadsAs k text v := by
  obtain ⟨w, hw, hsame⟩ := h _ hnum.bare_encode
  obtain ⟨w', hw', hsame'⟩ := h _ hnum.bare_eq_self
  refine ⟨readsAs_of_readChars ?_ hsame, readsAs_of_readChars hw' hsame'⟩
  rwa [String.toList_ofList]

theorem readsAs_integer (n : Whole) :
    ReadsAs .integer (String.ofList (Quoted.encode (write .integer n).toList)) n ∧
      ReadsAs .integer (write .integer n) n := by
  have htext : (write .integer n).toList = n.chars := String.toList_ofList
  refine readsAs_of_bare ?_ fun cs hcs => ⟨n, ?_, Domain.same_refl⟩
  · rw [htext]
    intro c hc
    obtain hdigit | rfl := Numeral.isDigit_or_eq_of_mem_signedDigits c hc
    · exact .inl hdigit
    · exact .inr (by decide)
  · rw [readChars, hcs, htext, readInteger, Whole.chars,
      Numeral.readWhole_signedDigits n.lower n.upper]
    dsimp only
    rw [Whole.ofInt?_val]

theorem readsAs_decimal (scale : Scale) (d : Decimal) :
    ReadsAs (.decimal scale) (String.ofList (Quoted.encode (write (.decimal scale) d).toList))
        (d.atScale scale) ∧
      ReadsAs (.decimal scale) (write (.decimal scale) d) (d.atScale scale) := by
  have htext : (write (.decimal scale) d).toList = (d.atScale scale).chars := String.toList_ofList
  obtain ⟨e, he, hsame⟩ := Decimal.exists_readDecimal scale d
  refine readsAs_of_bare ?_ fun cs hcs => ⟨e.atScale scale, ?_, hsame⟩
  · rw [htext]
    intro c hc
    obtain hdigit | rfl | rfl := Decimal.isDigit_or_eq_of_mem_chars _ c hc
    · exact .inl hdigit
    · exact .inr (by decide)
    · exact .inr (by decide)
  · rw [readChars, hcs, htext, readDecimal, he]

theorem readsAs_date (d : Date) :
    ReadsAs .date (String.ofList (Quoted.encode (write .date d).toList)) d ∧
      ReadsAs .date (write .date d) d := by
  have htext : (write .date d).toList = d.chars := String.toList_ofList
  refine readsAs_of_bare ?_ fun cs hcs => ⟨d, ?_, Domain.same_refl⟩
  · rw [htext]
    intro c hc
    obtain hdigit | rfl | rfl := Date.isDigit_or_eq_of_mem_chars _ c hc
    · exact .inl hdigit
    · exact .inr (by decide)
    · exact .inr (by decide)
  · rw [readChars, hcs, htext, readDate, Date.ofChars?_chars]

theorem readsAs_character (c : Char) :
    ReadsAs .character (String.ofList (Quoted.encode (write .character c).toList)) c ∧
      ReadsAs .character (write .character c) c := by
  have htext : (write .character c).toList = [c] := by
    change (Char.toString c).toList = [c]
    rw [Char.toString_eq_singleton, String.toList_singleton]
  have hself : Quoted.decode [c] = [c] :=
    Quoted.decode_eq_self fun h => absurd h.1 (Nat.not_succ_le_self 1)
  constructor
  · refine readsAs_of_readChars (w := c) ?_ Domain.same_refl
    rw [String.toList_ofList, htext, readChars, Quoted.decode_encode, readCharacter]
  · refine readsAs_of_readChars (w := c) ?_ Domain.same_refl
    rw [htext, readChars, hself, readCharacter]

theorem readsAs_string (s : String) :
    ReadsAs .string (String.ofList (Quoted.encode s.toList)) s ∧
      (ReadsAs .string s s ↔ ¬ Quoted.Enclosed s.toList) := by
  refine ⟨readsAs_of_readChars (w := s) ?_ Domain.same_refl, ?_, fun h => ?_⟩
  · rw [String.toList_ofList, readChars, Quoted.decode_encode, String.ofList_toList]
  · rintro ⟨w, hw, hsame⟩ henclosed
    obtain rfl : w = s := Phrase.strict.eq_of_same hsame
    have hdecode : String.ofList (Quoted.decode w.toList) = w := Except.ok.inj hw
    refine Quoted.decode_ne_self henclosed ?_
    rw [← String.toList_ofList (l := Quoted.decode w.toList), hdecode]
  · refine readsAs_of_readChars (w := s) ?_ Domain.same_refl
    rw [readChars, Quoted.decode_eq_self h, String.ofList_toList]

/-- **Reading undoes writing and quoting**: the text of a value, put between quotes, is read as the
value in the form of its domain.  So is the text itself, unless it is one that seems to be quoted. -/
theorem read_write (k : Kind) (v : k.Value) :
    ReadsAs k (String.ofList (Quoted.encode (write k v).toList)) (k.canonical v) ∧
    (ReadsAs k (write k v) (k.canonical v) ↔
      ¬ (k = .string ∧ Quoted.Enclosed (write k v).toList)) := by
  have hother : ∀ {p : Prop}, k ≠ .string → ReadsAs k (write k v) (k.canonical v) →
      (ReadsAs k (write k v) (k.canonical v) ↔ ¬ (k = .string ∧ p)) :=
    fun hne hreads => iff_of_true hreads fun h => hne h.1
  cases k with
  | integer => exact (readsAs_integer v).imp_right (hother nofun)
  | decimal scale => exact (readsAs_decimal scale v).imp_right (hother nofun)
  | date => exact (readsAs_date v).imp_right (hother nofun)
  | character => exact (readsAs_character v).imp_right (hother nofun)
  | string =>
    refine (readsAs_string v).imp_right fun h => h.trans (not_congr ?_)
    exact ⟨fun henclosed => ⟨rfl, henclosed⟩, And.right⟩

end CatalogStats.Literal
