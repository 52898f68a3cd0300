import CatalogStats.Domain.Numbered
import CatalogStats.Text.Numeral

/-!
# Domain/Integer — signed whole numbers of 64 bits

The values number themselves, so the domain is the interval from `-2 ^ 63` to `2 ^ 63 - 1`.
-/

namespace CatalogStats

/-- A signed whole number of 64 bits. -/
structure Whole where
  val : Int
  lower : -9223372036854775808 ≤ val
  upper : val ≤ 9223372036854775807
  deriving DecidableEq

namespace Whole

/-- The number as a value, if it has at most 64 bits. -/
def ofInt? (n : Int) : Option Whole :=
  if h : -9223372036854775808 ≤ n ∧ n ≤ 9223372036854775807 then some ⟨n, h.1, h.2⟩ else none

/-- The digits of a value, with a hyphen in front of a negative one. -/
def chars (n : Whole) : List Char := Numeral.signedDigits n.val

/-- A value as a text. -/
def text (n : Whole) : String := String.ofList n.chars

theorem val_of_ofInt? {i : Int} {n : Whole} (h : ofInt? i = some n) : n.val = i := by
  unfold ofInt? at h
  split at h
  · exact (Option.some.inj h) ▸ rfl
  · cases h

@[simp] theorem ofInt?_val (n : Whole) : ofInt? n.val = some n := dif_pos ⟨n.lower, n.upper⟩

/-- A value is its own number. -/
def numbering : Numbering Whole where
  first := -9223372036854775808
  last := 9223372036854775807
  index := val
  value? := ofInt?
  value?_index := ofInt?_val
  index_of_value? := val_of_ofInt?
  isSome_value?_iff i := by
    unfold ofInt?
    split <;> simp_all

end Whole

/-- **The domain of signed whole numbers of 64 bits.** -/
def Domain.integer : Domain Whole := Whole.numbering.domain "integer" Whole.text

end CatalogStats
