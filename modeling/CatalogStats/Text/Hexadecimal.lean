import CatalogStats.Text.Numeral

/-!
# Text/Hexadecimal — digits up to base sixteen

Single digits and numbers in the bases two, eight and sixteen.
-/

namespace CatalogStats.Hexadecimal

/-- A digit below sixteen, in lower case. -/
def digit (d : Nat) : Char := if d < 10 then Numeral.digitChar d else Char.ofNat (87 + d)

/-- The value of a digit, in either case. -/
def value? (c : Char) : Option Nat :=
  if c.isDigit then some (c.toNat - 48)
  else if 'a' ≤ c ∧ c ≤ 'f' then some (c.toNat - 87)
  else if 'A' ≤ c ∧ c ≤ 'F' then some (c.toNat - 55)
  else none

/-- The value of a digit of a base. -/
def valueIn? (base : Nat) (c : Char) : Option Nat := (value? c).filter (· < base)

/-- Continues a number by digits of a base. -/
def numberFrom? (base : Nat) : Nat → List Char → Option Nat
  | n, [] => some n
  | n, c :: cs =>
    match valueIn? base c with
    | some d => numberFrom? base (n * base + d) cs
    | none => none

/-- **The number that one or more digits of a base stand for.** -/
def number? (base : Nat) : List Char → Option Nat
  | [] => none
  | cs => numberFrom? base 0 cs

end CatalogStats.Hexadecimal
