import CatalogStats.Domain.Numbered

/-!
# Domain/Character — single characters

The characters are the code points without the surrogates `0xD800` to `0xDFFF`.  Steps and spans leave
that gap out.  Closing it numbers the characters consecutively from zero, so steps and spans are those
of the numbers.
-/

namespace CatalogStats

namespace Character

/-! ## By code point -/

/-- The character with a code point. -/
def ofCodePoint? (n : Nat) : Option Char :=
  if n.isValidChar then some (Char.ofNat n) else none

/-- **The character that follows by code point.**  The one before the surrogates is followed by the one
after them. -/
def next? (c : Char) : Option Char :=
  if c.toNat = 0xD800 - 1 then ofCodePoint? (0xDFFF + 1) else ofCodePoint? (c.toNat + 1)

/-- **The character that precedes by code point.** -/
def previous? (c : Char) : Option Char :=
  if c.toNat = 0xDFFF + 1 then ofCodePoint? (0xD800 - 1)
  else if c.toNat = 0 then none
  else ofCodePoint? (c.toNat - 1)

/-- **The number of characters from one to another**, in either order.  Surrogates between them do not
count. -/
def span (a b : Char) : Nat :=
  let (low, high) := if a ≤ b then (a.toNat, b.toNat) else (b.toNat, a.toNat)
  let size := high - low + 1
  if low < 0xD800 ∧ 0xDFFF < high then size - (0xDFFF - 0xD800 + 1) else size

/-! ## By number -/

/-- The number of a code point among those that are characters. -/
def position (n : Nat) : Nat := if n < 0xE000 then n else n - 0x800

/-- The code point with a number. -/
def codePoint (i : Nat) : Nat := if i < 0xD800 then i else i + 0x800

/-- The character with a number. -/
def ofPosition? (i : Int) : Option Char :=
  if 0 ≤ i ∧ i ≤ 1112063 then
    some (Char.ofNat (codePoint i.toNat))
  else none

theorem codePoint_isValidChar {i : Nat} (h : i ≤ 1112063) : (codePoint i).isValidChar := by
  simp only [codePoint, Nat.isValidChar]
  split <;> omega

theorem toNat_ofNat {n : Nat} (h : n.isValidChar) : (Char.ofNat n).toNat = n := by
  rw [Char.ofNat, dif_pos h]
  rfl

/-- A character is either below the surrogates or above them. -/
theorem toNat_bounds (c : Char) : c.toNat < 0xD800 ∨ 0xDFFF < c.toNat ∧ c.toNat < 0x110000 :=
  c.valid

theorem ofPosition?_position (c : Char) : ofPosition? (position c.toNat) = some c := by
  have hc := toNat_bounds c
  have hp : (position c.toNat : Int) ≤ 1112063 := by
    unfold position
    split <;> omega
  have hcode : codePoint (position c.toNat) = c.toNat := by
    unfold codePoint position
    split <;> split <;> omega
  rw [ofPosition?, if_pos ⟨Int.natCast_nonneg _, hp⟩]
  refine congrArg some (Char.toNat_inj.1 ?_)
  rw [Int.toNat_natCast, hcode, Char.ofNat_toNat]

theorem position_of_ofPosition? {i : Int} {c : Char} (h : ofPosition? i = some c) :
    (position c.toNat : Int) = i := by
  unfold ofPosition? at h
  split at h
  case isFalse => cases h
  case isTrue hi =>
    rw [← Option.some.inj h, toNat_ofNat (codePoint_isValidChar (by omega))]
    unfold position codePoint
    split <;> split <;> omega

/-- The characters are numbered by code point, without a gap. -/
def numbering : Numbering Char where
  first := 0
  last := 1112063
  index c := position c.toNat
  value? := ofPosition?
  value?_index := ofPosition?_position
  index_of_value? := position_of_ofPosition?
  isSome_value?_iff i := by
    unfold ofPosition?
    split <;> simp_all

theorem numbering_index (c : Char) : numbering.index c = position c.toNat := rfl

theorem numbering_value? (i : Int) : numbering.value? i = ofPosition? i := rfl

/-! ## Steps and spans -/

/-- Every number has the character of its code point, if that is one. -/
theorem ofPosition?_natCast (n : Nat) : ofPosition? n = ofCodePoint? (codePoint n) := by
  have hvalid : (0 ≤ (n : Int) ∧ (n : Int) ≤ 1112063) ↔ (codePoint n).isValidChar := by
    unfold codePoint Nat.isValidChar
    split <;> omega
  rw [ofPosition?, ofCodePoint?, Int.toNat_natCast]
  simp only [hvalid]

/-- **The next character has the next number**… -/
theorem next?_eq (c : Char) : next? c = ofPosition? (position c.toNat + 1) := by
  have hc := toNat_bounds c
  have hcode : codePoint (position c.toNat + 1) =
      if c.toNat = 0xD800 - 1 then 0xDFFF + 1 else c.toNat + 1 := by
    unfold codePoint position
    split <;> split <;> split <;> omega
  have hnumber := ofPosition?_natCast (position c.toNat + 1)
  rw [Int.natCast_add] at hnumber
  rw [next?, ← apply_ite ofCodePoint?, ← hcode]
  exact hnumber.symm

/-- …and the previous one the previous number. -/
theorem previous?_eq (c : Char) : previous? c = ofPosition? (position c.toNat - 1) := by
  have hc := toNat_bounds c
  rw [previous?]
  by_cases hzero : c.toNat = 0
  · rw [hzero]
    rfl
  have hcode : codePoint (position c.toNat - 1) =
      if c.toNat = 0xDFFF + 1 then 0xD800 - 1 else c.toNat - 1 := by
    unfold codePoint position
    split <;> split <;> split <;> omega
  have hpos : 1 ≤ position c.toNat := by
    unfold position
    split <;> omega
  have hnumber := ofPosition?_natCast (position c.toNat - 1)
  rw [Int.natCast_sub hpos, hcode] at hnumber
  rw [if_neg hzero, ← apply_ite ofCodePoint?]
  exact hnumber.symm

theorem position_lt_iff {c d : Char} : position c.toNat < position d.toNat ↔ c < d := by
  have hc := toNat_bounds c
  have hd := toNat_bounds d
  rw [Char.lt_def, UInt32.lt_iff_toNat_lt]
  change _ ↔ c.toNat < d.toNat
  unfold position
  split <;> split <;> omega

theorem compare_of_next? {c d : Char} (h : next? c = some d) : compare c d = .lt := by
  have hp := position_of_ofPosition? (next?_eq c ▸ h)
  exact compareOfLessAndEq_eq_lt.2 (position_lt_iff.1 (by omega))

theorem compare_of_previous? {c d : Char} (h : previous? c = some d) : compare c d = .gt := by
  have hp := position_of_ofPosition? (previous?_eq c ▸ h)
  exact Std.OrientedCmp.gt_iff_lt.2 (compareOfLessAndEq_eq_lt.2 (position_lt_iff.1 (by omega)))

/-- **The span between two characters is that between their numbers.** -/
theorem span_eq (a b : Char) :
    span a b = ((position a.toNat : Int) - position b.toNat).natAbs + 1 := by
  have ha := toNat_bounds a
  have hb := toNat_bounds b
  have hle : a ≤ b ↔ a.toNat ≤ b.toNat := Char.le_def.trans UInt32.le_iff_toNat_le
  rw [span]
  simp only [hle]
  unfold position
  split <;> dsimp only <;> split <;> split <;> split <;> omega

end Character

/-- **The domain of single characters.** -/
def Domain.character : Domain Char := Character.numbering.domain "character" Char.toString

/-! ## The domain by code point -/

namespace Domain

theorem character_next? (c : Char) : character.next? c = Character.next? c := by
  rw [character, Numbering.domain_next?, Character.numbering_value?, Character.numbering_index,
    Character.next?_eq]

theorem character_previous? (c : Char) : character.previous? c = Character.previous? c := by
  rw [character, Numbering.domain_previous?, Character.numbering_value?, Character.numbering_index,
    Character.previous?_eq]

theorem character_span (a b : Char) : character.span a b = Character.span a b := by
  rw [character, Numbering.domain_span, Character.numbering_index, Character.numbering_index,
    Character.span_eq]

end Domain

end CatalogStats
