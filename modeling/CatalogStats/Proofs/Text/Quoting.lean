import CatalogStats.Text.Blank
import CatalogStats.Text.Quoted
import Mathlib.Order.Defs.LinearOrder

/-!
# Proofs/Text/Quoting — blanks and quotes around a text

A text without blanks is not trimmed.  The quotes around a text are taken off exactly when there are
two (`isSome_inner?_iff`): a text that does not seem to be quoted stands for itself
(`decode_eq_self`), and any other for a shorter one (`decode_ne_self`).
-/

namespace CatalogStats

open Text

/-! ## Texts without blanks -/

namespace Text

variable {cs : List Char}

theorem isBlank_of_isDigit {c : Char} (h : c.isDigit = true) : isBlank c = false := by
  have hc : 48 ≤ c.toNat ∧ c.toNat ≤ 57 := by
    simpa [Char.isDigit, UInt32.le_iff_toNat_le] using h
  simp only [isBlank, Bool.or_eq_false_iff, Bool.and_eq_false_iff, decide_eq_false_iff_not,
    beq_eq_false_iff_ne]
  omega

theorem trimStart_eq_self (h : ∀ c ∈ cs, isBlank c = false) : trimStart cs = cs := by
  cases cs with
  | nil => rfl
  | cons c cs => exact trimStart_cons_of_not_blank cs (h c List.mem_cons_self)

theorem trim_eq_self (h : ∀ c ∈ cs, isBlank c = false) : trim cs = cs := by
  have hrev : ∀ c ∈ cs.reverse, isBlank c = false := fun c hc => h c (List.mem_reverse.1 hc)
  rw [trim, trimEnd, trimStart_eq_self h, trimStart_eq_self hrev, List.reverse_reverse]

end Text

/-! ## Quoting -/

namespace Quoted

variable {cs body : List Char}

/-- A text that seems to be quoted: it starts with a quote and ends with another. -/
def Enclosed (cs : List Char) : Prop :=
  2 ≤ cs.length ∧ cs.head? = some mark ∧ cs.getLast? = some mark

/-- What stands between two quotes lacks both of them. -/
theorem length_of_inner?_eq_some (h : inner? cs = some body) : body.length + 2 ≤ cs.length := by
  unfold inner? at h
  split at h
  case h_2 => cases h
  case h_1 rest =>
  split at h
  case isFalse => cases h
  case isTrue hlast =>
    have hne : rest ≠ [] := by
      rintro rfl
      cases hlast
    have hpos := List.length_pos_iff.2 hne
    rw [← Option.some.inj h, List.length_dropLast, List.length_cons]
    omega

/-- The quotes around a text are taken off exactly when there are two. -/
theorem isSome_inner?_iff : (inner? cs).isSome = true ↔ Enclosed cs := by
  cases cs with
  | nil => exact ⟨nofun, fun h => nomatch h.1⟩
  | cons c cs =>
    by_cases hc : c = mark
    · subst hc
      change (if cs.getLast? = some mark then some cs.dropLast else none).isSome = true ↔ _
      cases cs with
      | nil => simp [Enclosed]
      | cons d ds => simp [Enclosed, List.getLast?_cons_cons]
    · have hnone : inner? (c :: cs) = none := by
        rw [inner?]
        rintro _ heq
        exact absurd (List.cons.inj heq).1 hc
      simp [hnone, Enclosed, hc]

/-- **A text that does not seem to be quoted stands for itself.** -/
theorem decode_eq_self (h : ¬ Enclosed cs) : decode cs = cs := by
  have hnone : inner? cs = none := by
    rw [← Option.not_isSome_iff_eq_none, isSome_inner?_iff]
    exact h
  rw [decode, hnone]

theorem length_undouble_le (cs : List Char) : (undouble cs).length ≤ cs.length := by
  fun_induction undouble cs with
  | case1 cs ih => simp only [List.length_cons]; omega
  | case2 c cs _ ih => exact Nat.succ_le_succ ih
  | case3 => exact Nat.le_refl _

/-- …and any other does not. -/
theorem decode_ne_self (h : Enclosed cs) : decode cs ≠ cs := by
  obtain ⟨body, hbody⟩ := Option.isSome_iff_exists.1 (isSome_inner?_iff.2 h)
  have hlen := length_of_inner?_eq_some hbody
  have hle := length_undouble_le body
  intro heq
  rw [decode, hbody] at heq
  have : (undouble body).length = cs.length := congrArg List.length heq
  omega

/-- Quotes are visible. -/
theorem trim_encode (cs : List Char) : trim (encode cs) = encode cs := by
  have hmark : isBlank mark = false := by decide
  have hrev : (encode cs).reverse = mark :: (mark :: double cs).reverse := by
    rw [encode, List.reverse_append, List.reverse_singleton, List.singleton_append]
  have hstart : trimStart (encode cs) = encode cs := trimStart_cons_of_not_blank _ hmark
  rw [trim, hstart, trimEnd, hrev, trimStart_cons_of_not_blank _ hmark, ← hrev,
    List.reverse_reverse]

end Quoted

end CatalogStats
