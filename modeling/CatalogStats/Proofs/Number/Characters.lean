import CatalogStats.Domain.Integer
import CatalogStats.Number.Shortest
import Mathlib.Data.Nat.Notation

/-!
# Proofs/Number/Characters — the characters that numbers are written with

Natural numbers are written with digits, integers also with a hyphen, and numbers of double
precision with digits and a full stop.  So none of them contains a character that ends a field or a
line.
-/

namespace CatalogStats

variable {n : ℕ}

namespace Numeral

theorem isDigit_digitChar (h : n < 10) : (digitChar n).isDigit = true := by
  have hall : ∀ m < 10, (digitChar m).isDigit = true := by decide
  exact hall n h

/-- Writing digits in front of digits gives digits. -/
theorem isDigit_of_mem_digitsOnto {fuel : ℕ} {tail : List Char}
    (htail : ∀ c ∈ tail, c.isDigit = true) : ∀ c ∈ digitsOnto fuel n tail, c.isDigit = true := by
  induction fuel generalizing n tail with
  | zero => exact htail
  | succ fuel ih =>
    rw [digitsOnto]
    split
    case isTrue hn => exact List.forall_mem_cons.2 ⟨isDigit_digitChar hn, htail⟩
    case isFalse =>
      have hlast : (digitChar (n % 10)).isDigit = true :=
        isDigit_digitChar (Nat.mod_lt n (by decide))
      exact ih (List.forall_mem_cons.2 ⟨hlast, htail⟩)

/-- **A natural number is written with digits.** -/
theorem isDigit_of_mem_digits : ∀ c ∈ digits n, c.isDigit = true := isDigit_of_mem_digitsOnto nofun

/-- …and so it is with zeros in front. -/
theorem isDigit_of_mem_padded {width : ℕ} : ∀ c ∈ padded width n, c.isDigit = true := by
  refine List.forall_mem_append.2 ⟨fun c hc => ?_, isDigit_of_mem_digits⟩
  rw [List.eq_of_mem_replicate hc]
  rfl

/-- **An integer is written with digits and a hyphen.** -/
theorem isDigit_or_eq_of_mem_signedDigits {i : Int} :
    ∀ c ∈ signedDigits i, c.isDigit = true ∨ c = '-' := by
  cases i with
  | ofNat n => exact fun c hc => .inl (isDigit_of_mem_digits c hc)
  | negSucc n =>
    exact List.forall_mem_cons.2 ⟨.inr rfl, fun c hc => .inl (isDigit_of_mem_digits c hc)⟩

end Numeral

namespace Binary64

theorem isDigit_or_eq_of_mem_plain {m : ℕ} {g : Int} :
    ∀ c ∈ plain m g, c.isDigit = true ∨ c = '.' := by
  rw [plain]
  split
  case isTrue =>
    refine List.forall_mem_append.2 ⟨fun c hc => .inl (Numeral.isDigit_of_mem_digits c hc), ?_⟩
    intro c hc
    rw [List.eq_of_mem_replicate hc]
    exact .inl rfl
  case isFalse =>
    refine List.forall_mem_append.2 ⟨fun c hc => .inl ?_, List.forall_mem_cons.2 ⟨.inr rfl, ?_⟩⟩
    · exact Numeral.isDigit_of_mem_padded c (List.mem_of_mem_take hc)
    · exact fun c hc => .inl (Numeral.isDigit_of_mem_padded c (List.mem_of_mem_drop hc))

/-- **A number of double precision is written with digits and a full stop.** -/
theorem isDigit_or_eq_of_mem_chars {x : Binary64} :
    ∀ c ∈ x.chars, c.isDigit = true ∨ c = '.' := by
  rw [chars]
  split
  case isTrue => exact List.forall_mem_singleton.2 (.inl rfl)
  case isFalse => exact isDigit_or_eq_of_mem_plain

end Binary64

end CatalogStats
