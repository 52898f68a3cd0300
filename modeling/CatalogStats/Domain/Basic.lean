/-!
# Domain/Basic — ordered, discrete value spaces

A domain says how the values of a column are ordered, which value follows and which precedes a
value, and how many values lie between two of them.  The order is total up to `same`: two values
that compare equal may still be written differently, as `1.0` and `1.00` are.
-/

namespace CatalogStats

/-- An ordered, discrete space of values of type `α`. -/
structure Domain (α : Type) where
  /-- The name by which messages refer to the domain. -/
  name : String
  /-- How messages write a value. -/
  text : α → String
  compare : α → α → Ordering
  /-- The value that follows, where there is one. -/
  next? : α → Option α
  /-- The value that precedes, where there is one. -/
  previous? : α → Option α
  /-- The number of values from one to the other, both included, in either order. -/
  span : α → α → Nat
  trans : Std.TransCmp compare

namespace Domain

variable {α : Type} (D : Domain α)

instance : Std.TransCmp D.compare := D.trans

/-- `a` stands strictly before `b`. -/
def lt (a b : α) : Bool := (D.compare a b).isLT

/-- `a` stands before `b` or is the same value. -/
def le (a b : α) : Bool := (D.compare a b).isLE

/-- Both are the same value of the domain. -/
def same (a b : α) : Bool := (D.compare a b).isEq

/-- The smaller of two values; of two that are the same, the first. -/
def min (a b : α) : α := if D.lt b a then b else a

/-- The larger of two values; of two that are the same, the first. -/
def max (a b : α) : α := if D.lt a b then b else a

/-- A step that leaves the domain. -/
inductive Fault (α : Type) where
  | noNext (value : α)
  | noPrevious (value : α)
  deriving Repr, DecidableEq

/-- The wording of a step that leaves the domain. -/
def Fault.message : Fault α → String
  | .noNext v => s!"Value '{D.text v}' has no successor in the {D.name} domain."
  | .noPrevious v => s!"Value '{D.text v}' has no predecessor in the {D.name} domain."

/-- The value that follows, or the step that fails. -/
def next (a : α) : Except (Fault α) α :=
  match D.next? a with
  | some b => .ok b
  | none => .error (.noNext a)

/-- The value that precedes, or the step that fails. -/
def previous (a : α) : Except (Fault α) α :=
  match D.previous? a with
  | some b => .ok b
  | none => .error (.noPrevious a)

/-! ## The order

`lt` and `le` are the two halves of one total preorder, and `same` is its equivalence. -/

section Order

variable {D} {a b c : α}

theorem lt_iff : D.lt a b = true ↔ D.compare a b = .lt := by
  cases h : D.compare a b <;> simp [lt, h, Ordering.isLT]

theorem le_iff : D.le a b = true ↔ (D.compare a b).isLE = true := Iff.rfl

theorem same_iff : D.same a b = true ↔ D.compare a b = .eq := by
  cases h : D.compare a b <;> simp [same, h, Ordering.isEq]

@[simp] theorem le_refl : D.le a a = true := Std.ReflCmp.isLE_rfl

theorem le_trans (h : D.le a b = true) (h' : D.le b c = true) : D.le a c = true :=
  Std.TransCmp.isLE_trans h h'

theorem le_of_lt (h : D.lt a b = true) : D.le a b = true := by
  rw [lt_iff] at h
  simp [le, h]

theorem lt_of_lt_of_le (h : D.lt a b = true) (h' : D.le b c = true) : D.lt a c = true :=
  lt_iff.2 (Std.TransCmp.lt_of_lt_of_isLE (lt_iff.1 h) h')

theorem lt_of_le_of_lt (h : D.le a b = true) (h' : D.lt b c = true) : D.lt a c = true :=
  lt_iff.2 (Std.TransCmp.lt_of_isLE_of_lt h (lt_iff.1 h'))

/-- **Of two values one stands before the other or both are the same.** -/
theorem not_lt : D.lt a b = false ↔ D.le b a = true := by
  have h : D.compare b a = (D.compare a b).swap := Std.OrientedCmp.eq_swap
  cases hc : D.compare a b <;> simp_all [lt, le, Ordering.isLT]

/-- Not standing before or at is standing strictly after. -/
theorem not_le : D.le a b = false ↔ D.lt b a = true := by
  have h : D.compare b a = (D.compare a b).swap := Std.OrientedCmp.eq_swap
  cases hc : D.compare a b <;> simp_all [lt, le, Ordering.isLT]

theorem not_lt_of_le (h : D.le b a = true) : ¬ D.lt a b = true := Bool.eq_false_iff.1 (not_lt.2 h)

theorem not_le_of_lt (h : D.lt b a = true) : ¬ D.le a b = true := Bool.eq_false_iff.1 (not_le.2 h)

theorem lt_trans (h : D.lt a b = true) (h' : D.lt b c = true) : D.lt a c = true :=
  lt_of_lt_of_le h (le_of_lt h')

/-- Two values are the same when neither stands before the other. -/
theorem same_iff_le : D.same a b = true ↔ D.le a b = true ∧ D.le b a = true := by
  have h : D.compare b a = (D.compare a b).swap := Std.OrientedCmp.eq_swap
  cases hc : D.compare a b <;> simp_all [same, le, Ordering.isEq]

@[simp] theorem same_refl : D.same a a = true := same_iff_le.2 ⟨le_refl, le_refl⟩

theorem same_symm (h : D.same a b = true) : D.same b a = true := same_iff_le.2 (same_iff_le.1 h).symm

theorem same_trans (h : D.same a b = true) (h' : D.same b c = true) : D.same a c = true :=
  same_iff_le.2 ⟨le_trans (same_iff_le.1 h).1 (same_iff_le.1 h').1,
    le_trans (same_iff_le.1 h').2 (same_iff_le.1 h).2⟩

theorem lt_iff_le_not_same : D.lt a b = true ↔ D.le a b = true ∧ D.same a b = false := by
  cases hc : D.compare a b <;> simp [lt, le, same, hc, Ordering.isLT, Ordering.isEq]

theorem not_same_of_lt (h : D.lt a b = true) : D.same a b = false := (lt_iff_le_not_same.1 h).2

end Order

end Domain

end CatalogStats
