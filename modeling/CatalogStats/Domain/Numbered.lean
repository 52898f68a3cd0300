import CatalogStats.Domain.Basic

/-!
# Domain/Numbered — domains that are an interval of the integers

The values of many domains can be numbered by consecutive integers.  Such a numbering is all that a
domain needs: order, neighbours and spans are those of the numbers.
-/

namespace CatalogStats

/-- **A numbering** of the values by the integers from `first` to `last`, each used once. -/
structure Numbering (α : Type) where
  first : Int
  last : Int
  index : α → Int
  /-- The value with a number. -/
  value? : Int → Option α
  value?_index : ∀ a, value? (index a) = some a
  index_of_value? : ∀ {i a}, value? i = some a → index a = i
  isSome_value?_iff : ∀ i, (value? i).isSome = true ↔ first ≤ i ∧ i ≤ last

namespace Numbering

variable {α : Type} (N : Numbering α)

/-- The domain of a numbering. -/
def domain (name : String) (text : α → String) : Domain α where
  name := name
  text := text
  compare := compareOn N.index
  next? a := N.value? (N.index a + 1)
  previous? a := N.value? (N.index a - 1)
  span a b := (N.index a - N.index b).natAbs + 1
  trans := inferInstance

theorem first_le_index (a : α) : N.first ≤ N.index a :=
  ((N.isSome_value?_iff _).1 (by rw [N.value?_index]; rfl)).1

theorem index_le_last (a : α) : N.index a ≤ N.last :=
  ((N.isSome_value?_iff _).1 (by rw [N.value?_index]; rfl)).2

/-- Two values with one number are equal. -/
theorem index_inj {a b : α} (h : N.index a = N.index b) : a = b := by
  have ha := N.value?_index a
  rw [h, N.value?_index b] at ha
  exact (Option.some.inj ha).symm

/-! ## The domain of a numbering -/

section Domain

variable {N} {name : String} {text : α → String} {a b : α}

theorem domain_next? (a : α) : (N.domain name text).next? a = N.value? (N.index a + 1) := rfl

theorem domain_previous? (a : α) :
    (N.domain name text).previous? a = N.value? (N.index a - 1) := rfl

theorem domain_span (a b : α) :
    (N.domain name text).span a b = (N.index a - N.index b).natAbs + 1 := rfl

theorem domain_lt : (N.domain name text).lt a b = true ↔ N.index a < N.index b :=
  Domain.lt_iff.trans Int.compare_eq_lt

theorem domain_le : (N.domain name text).le a b = true ↔ N.index a ≤ N.index b := Int.isLE_compare

/-- Values that compare equal are equal. -/
theorem eq_of_domain_same (h : (N.domain name text).same a b = true) : a = b :=
  N.index_inj (Int.compare_eq_eq.1 (Domain.same_iff.1 h))

theorem index_of_next? (h : (N.domain name text).next? a = some b) : N.index b = N.index a + 1 :=
  N.index_of_value? h

theorem index_of_previous? (h : (N.domain name text).previous? a = some b) :
    N.index b = N.index a - 1 :=
  N.index_of_value? h

/-- Every number between the first and the last has a value. -/
theorem exists_value? {i : Int} (h : N.first ≤ i) (h' : i ≤ N.last) : ∃ a, N.value? i = some a :=
  Option.isSome_iff_exists.1 ((N.isSome_value?_iff i).2 ⟨h, h'⟩)

end Domain

end Numbering

end CatalogStats
