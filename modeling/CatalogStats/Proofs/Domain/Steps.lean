import CatalogStats.Proofs.Domain.Lattice

/-!
# Proofs/Domain/Steps — a neighbour stands strictly on its side

A domain is **strict** when values that compare equal are equal, the next value is greater and the
previous one smaller.  A numbering makes a domain strict, and so does a step of the last character:
every kind of column but the decimals has a strict domain.  Decimals are left out because `1.0` and
`1.00` compare equal, and because near the limit of the mantissa a step can be rounded away.
-/

namespace CatalogStats

section Results

variable {α : Type} {D : Domain α} {a b : α}

/-- A step up succeeds where a value follows… -/
theorem Domain.next_eq_ok_iff : D.next a = .ok b ↔ D.next? a = some b := by
  rw [Domain.next]
  cases D.next? a <;> simp

/-- …and is reported where none does. -/
theorem Domain.next_eq_error_iff : D.next a = .error (.noNext a) ↔ D.next? a = none := by
  rw [Domain.next]
  cases D.next? a <;> simp

/-- A step down succeeds where a value precedes… -/
theorem Domain.previous_eq_ok_iff : D.previous a = .ok b ↔ D.previous? a = some b := by
  rw [Domain.previous]
  cases D.previous? a <;> simp

/-- …and is reported where none does. -/
theorem Domain.previous_eq_error_iff :
    D.previous a = .error (.noPrevious a) ↔ D.previous? a = none := by
  rw [Domain.previous]
  cases D.previous? a <;> simp

end Results

/-- **A domain with strict steps.** -/
structure Domain.Strict {α : Type} (D : Domain α) : Prop where
  eq_of_same : ∀ {a b : α}, D.same a b = true → a = b
  lt_of_next? : ∀ {a b : α}, D.next? a = some b → D.lt a b = true
  lt_of_previous? : ∀ {a b : α}, D.previous? a = some b → D.lt b a = true

namespace Domain.Lattice

variable {α : Type} {D : Domain α} {on : α → Prop} (L : D.Lattice on) (hD : D.Strict) {a b : α}
include hD

/-- **A strict step on a lattice** is one to the next index. -/
theorem index_of_next? (ha : on a) (hb : on b) (h : D.next? a = some b) :
    L.index b = L.index a + 1 := by
  have hlt := (L.lt_iff ha hb).1 (hD.lt_of_next? h)
  obtain ⟨c, hc, _, hidx⟩ := L.exists_next? ha hb hlt
  exact Option.some.inj (hc.symm.trans h) ▸ hidx

/-- …or to the one before. -/
theorem index_of_previous? (ha : on a) (hb : on b) (h : D.previous? a = some b) :
    L.index b = L.index a - 1 := by
  have hlt := (L.lt_iff hb ha).1 (hD.lt_of_previous? h)
  obtain ⟨c, hc, _, hidx⟩ := L.exists_previous? ha hb hlt
  exact Option.some.inj (hc.symm.trans h) ▸ hidx

include L in
/-- A value has a predecessor unless it is the least of all. -/
theorem isSome_previous?_iff (hon : ∀ v, on v) :
    (D.previous? a).isSome = true ↔ ¬ ∀ v, D.le a v = true := by
  simp only [Classical.not_forall, Bool.not_eq_true, Domain.not_le]
  constructor
  · intro hsome
    obtain ⟨v, hv⟩ := Option.isSome_iff_exists.1 hsome
    exact ⟨v, hD.lt_of_previous? hv⟩
  · rintro ⟨v, hlt⟩
    obtain ⟨c, hc, _⟩ := L.exists_previous? (hon a) (hon v) ((L.lt_iff (hon v) (hon a)).1 hlt)
    exact hc ▸ rfl

end Domain.Lattice

namespace Numbering

variable {α : Type} (N : Numbering α) {name : String} {text : α → String} {a : α}

theorem strict (name : String) (text : α → String) : (N.domain name text).Strict where
  eq_of_same := eq_of_domain_same
  lt_of_next? h := by
    have := index_of_next? h
    exact domain_lt.2 (by omega)
  lt_of_previous? h := by
    have := index_of_previous? h
    exact domain_lt.2 (by omega)

/-- Steps up end at the last number… -/
theorem next?_eq_none_iff : (N.domain name text).next? a = none ↔ N.index a = N.last := by
  have hlow := N.first_le_index a
  have hhigh := N.index_le_last a
  have hsome := N.isSome_value?_iff (N.index a + 1)
  change N.value? (N.index a + 1) = none ↔ _
  rw [← Option.not_isSome_iff_eq_none, hsome]
  omega

/-- …and steps down at the first. -/
theorem previous?_eq_none_iff : (N.domain name text).previous? a = none ↔ N.index a = N.first := by
  have hlow := N.first_le_index a
  have hhigh := N.index_le_last a
  have hsome := N.isSome_value?_iff (N.index a - 1)
  change N.value? (N.index a - 1) = none ↔ _
  rw [← Option.not_isSome_iff_eq_none, hsome]
  omega

end Numbering

theorem Phrase.strict : Domain.phrase.Strict where
  eq_of_same {a b} h := by
    have hc : compare a.toList b.toList = .eq := Domain.same_iff.1 h
    exact String.toList_inj.1 (Std.LawfulEqCmp.eq_of_compare hc)
  lt_of_next? h := Domain.lt_iff.2 (Phrase.compare_of_next? h)
  lt_of_previous? h := Domain.lt_iff.2 (Std.OrientedCmp.gt_iff_lt.1 (Phrase.compare_of_previous? h))

/-- A text is at no distance from itself. -/
theorem Phrase.distance_self (cs : List Char) : Phrase.distance cs cs = 0 := by
  induction cs with
  | nil => rw [Phrase.distance]
  | cons c cs ih => rw [Phrase.distance, ih, Phrase.gap, Int.sub_self, Int.natAbs_zero]

namespace Kind

/-- **Every kind but the decimals has strict steps.** -/
theorem strict {k : Kind} (hk : ∀ scale, k ≠ .decimal scale) : k.domain.Strict := by
  cases k with
  | integer => exact Whole.numbering.strict _ _
  | decimal scale => exact absurd rfl (hk scale)
  | date => exact Date.numbering.strict _ _
  | character => exact Character.numbering.strict _ _
  | string => exact Phrase.strict

/-- A span counts at least the value it starts at. -/
theorem span_pos (k : Kind) (a b : k.Value) : 0 < k.domain.span a b := by
  cases k <;> exact Nat.succ_pos _

/-- …and no other if it ends there. -/
theorem span_self (k : Kind) (v : k.Value) : k.domain.span v v = 1 := by
  have hnum : ∀ i : Int, (i - i).natAbs + 1 = 1 := fun i => by rw [Int.sub_self, Int.natAbs_zero]
  cases k with
  | string => exact congrArg (· + 1) (Phrase.distance_self _)
  | _ => exact hnum _

end Kind

end CatalogStats
