import CatalogStats.Domain.Kind

/-!
# Proofs/Domain/Lattice — values that stand at consecutive integers

A **lattice** in a domain is a set of values with an integer index each, on which the order, the
neighbours and the spans are those of the indices.  All values of a numbered domain form one.  In the
domain of decimals at a scale it is the values written with exactly that many digits, indexed by
their signed mantissas: between two of them every step is exact.
-/

namespace CatalogStats

/-- **A lattice in a domain**: the values that satisfy `on`, at the integers `index`.  A step from
one of them towards another stays among them. -/
structure Domain.Lattice {α : Type} (D : Domain α) (on : α → Prop) where
  index : α → Int
  le_iff : ∀ {a b}, on a → on b → (D.le a b = true ↔ index a ≤ index b)
  exists_next? : ∀ {a b}, on a → on b → index a < index b →
    ∃ c, D.next? a = some c ∧ on c ∧ index c = index a + 1
  exists_previous? : ∀ {a b}, on a → on b → index b < index a →
    ∃ c, D.previous? a = some c ∧ on c ∧ index c = index a - 1
  span_eq : ∀ {a b}, on a → on b → D.span a b = (index a - index b).natAbs + 1

namespace Domain.Lattice

variable {α : Type} {D : Domain α} {on : α → Prop} (L : D.Lattice on) {a b : α}

theorem lt_iff (ha : on a) (hb : on b) : D.lt a b = true ↔ L.index a < L.index b := by
  rw [← Bool.not_eq_false, not_lt, L.le_iff hb ha, Int.not_le]

theorem same_iff (ha : on a) (hb : on b) : D.same a b = true ↔ L.index a = L.index b := by
  rw [same_iff_le, L.le_iff ha hb, L.le_iff hb ha, ← Int.le_antisymm_iff]

end Domain.Lattice

/-- All values of a numbered domain form a lattice. -/
def Numbering.lattice {α : Type} (N : Numbering α) (name : String) (text : α → String) :
    (N.domain name text).Lattice fun _ => True where
  index := N.index
  le_iff _ _ := domain_le
  exists_next? {a b} _ _ h := by
    have ha := N.first_le_index a
    have hb := N.index_le_last b
    obtain ⟨c, hc⟩ := N.exists_value? (i := N.index a + 1) (by omega) (by omega)
    exact ⟨c, hc, trivial, N.index_of_value? hc⟩
  exists_previous? {a b} _ _ h := by
    have ha := N.index_le_last a
    have hb := N.first_le_index b
    obtain ⟨c, hc⟩ := N.exists_value? (i := N.index a - 1) (by omega) (by omega)
    exact ⟨c, hc, trivial, N.index_of_value? hc⟩
  span_eq _ _ := rfl

/-! ## Decimals of one scale

Values of one scale are added on their signed mantissas, exactly as long as the sum fits. -/

namespace Decimal

variable {a b d : Decimal} {scale : Nat}

theorem natAbs_signed (d : Decimal) : d.signed.natAbs = d.mantissa := by
  unfold signed
  split <;> omega

/-- A number between two signed mantissas fits a mantissa. -/
theorem natAbs_lt_of_between {i : Int} (ha : a.signed ≤ i) (hb : i ≤ b.signed) :
    i.natAbs < limit := by
  have h₁ := a.natAbs_signed
  have h₂ := b.natAbs_signed
  have h₃ : a.mantissa < limit := a.mantissa_lt
  have h₄ : b.mantissa < limit := b.mantissa_lt
  omega

theorem signed_eq_zero (h : d.mantissa = 0) : d.signed = 0 := by
  have := d.natAbs_signed
  omega

/-- A value with the wanted digits is left as it is. -/
@[simp] theorem atScale_self (h : d.scale = scale) : d.atScale scale = d := by
  rw [atScale, dif_neg (by omega), h, Nat.sub_self]
  rfl

theorem reduce_of_lt {n : Nat} (h : n < limit) : reduce n scale = some (n, scale) := by
  rw [reduce, excessDigits, if_pos h]
  rfl

/-- **The sum of two values of one scale is exact** if it fits. -/
theorem exists_add? (hs : a.scale = b.scale) (h : (a.signed + b.signed).natAbs < limit) :
    ∃ c, a.add? b = some c ∧ c.scale = a.scale ∧ c.signed = a.signed + b.signed := by
  rw [add?]
  by_cases ha : a.mantissa = 0
  · rw [if_pos ha]
    exact ⟨b, rfl, hs.symm, by rw [signed_eq_zero ha, Int.zero_add]⟩
  rw [if_neg ha]
  by_cases hb : b.mantissa = 0
  · rw [if_pos hb]
    exact ⟨a, rfl, rfl, by rw [signed_eq_zero hb, Int.add_zero]⟩
  rw [if_neg hb]
  simp only [← hs, Nat.max_self, Nat.sub_self, tenTo_zero, Int.ofNat_one, Int.mul_one]
  rw [reduce_of_lt h]
  refine ⟨⟨_, (a.signed + b.signed).natAbs, a.scale, h, a.scale_le⟩,
    dif_pos ⟨h, a.scale_le⟩, rfl, ?_⟩
  generalize a.signed + b.signed = i at h ⊢
  change (if decide (i < 0) = true then -(i.natAbs : Int) else (i.natAbs : Int)) = i
  by_cases hneg : i < 0
  · rw [if_pos (decide_eq_true hneg)]
    omega
  · rw [if_neg (by rwa [decide_eq_true_eq])]
    omega

theorem units_le_iff (hs : a.scale = b.scale) : a.units ≤ b.units ↔ a.signed ≤ b.signed := by
  have hpos : (0 : Int) < tenTo (28 - b.scale) := by
    exact_mod_cast tenTo_pos _
  rw [units, units, hs]
  exact Int.mul_le_mul_right hpos

/-- Stepping a value of the scale by one unit is exact where the result fits. -/
theorem exists_step {scale : Scale} {u : Decimal} (hd : d.scale = scale) (hu : u.scale = scale)
    (h : (d.signed + u.signed).natAbs < limit) :
    ∃ c, ((d.atScale scale).add? u).map (atScale scale) = some c ∧ c.scale = scale ∧
      c.signed = d.signed + u.signed := by
  obtain ⟨c, hc, hcs, hsum⟩ := exists_add? (hd.trans hu.symm) h
  rw [atScale_self hd, hc, Option.map_some, atScale_self (hcs.trans hd)]
  exact ⟨c, rfl, hcs.trans hd, hsum⟩

/-- **The decimals of one scale form a lattice**, at their signed mantissas. -/
def lattice (scale : Scale) : (Domain.decimal scale).Lattice fun d => d.scale = scale where
  index := signed
  le_iff ha hb := Int.isLE_compare.trans (units_le_iff (ha.trans hb.symm))
  exists_next? {a b} ha _ h :=
    have hfit : (a.signed + 1).natAbs < limit := natAbs_lt_of_between (a := a) (b := b) (by omega) h
    exists_step (u := step scale) ha rfl hfit
  exists_previous? {a b} ha _ h :=
    have hfit : (a.signed + -1).natAbs < limit :=
      natAbs_lt_of_between (a := b) (b := a) (by omega) (by omega)
    exists_step (u := (step scale).neg) ha rfl hfit
  span_eq {a b} ha hb := by
    change span scale a b = _
    rw [span, atScale_self ha, atScale_self hb]

end Decimal

namespace Kind

/-- **The values that stand on the grid of a kind**: of the decimals those that are written with
all digits of the scale, of any other kind all. -/
def OnGrid : (k : Kind) → k.Value → Prop
  | .decimal scale, v => v.scale = scale
  | _, _ => True

/-- Only decimals can stand off the grid. -/
theorem onGrid {k : Kind} (hk : ∀ scale, k ≠ .decimal scale) (v : k.Value) : k.OnGrid v := by
  cases k with
  | decimal scale => exact absurd rfl (hk scale)
  | _ => trivial

/-- Every kind but the texts has a lattice. -/
def lattice : (k : Kind) → k ≠ .string → k.domain.Lattice k.OnGrid
  | .integer, _ => Whole.numbering.lattice _ _
  | .decimal scale, _ => Decimal.lattice scale
  | .date, _ => Date.numbering.lattice _ _
  | .character, _ => Character.numbering.lattice _ _
  | .string, h => absurd rfl h

end Kind

end CatalogStats
