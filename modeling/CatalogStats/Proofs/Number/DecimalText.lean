import CatalogStats.Number.DecimalReading
import CatalogStats.Proofs.Domain.Lattice
import CatalogStats.Proofs.Text.Numerals

/-!
# Proofs/Number/DecimalText — decimals are read back from their text

A reader takes the digits in front of the point and those behind it one by one, and none is lost as
long as mantissa and scale fit (`Progress.read_digits`).  The text of a decimal has exactly its digits,
so the decimal is read back, except that a zero loses its sign (`readChars_chars`).  Reading brings it
to the scale of its domain once more, which changes nothing (`Settled.atScale_eq`).
-/

namespace CatalogStats.Decimal

open Numeral

variable {p : Progress} {d : Decimal} {ds rest : List Char} {c : Char} {scale m n : ℕ}

/-! ## Reading digits -/

/-- What has been read after some more digits. -/
def Progress.advance (p : Progress) (ds : List Char) : Progress where
  negative := p.negative
  mantissa := valueFrom p.mantissa ds
  scale := if p.point then p.scale + ds.length else 0
  point := p.point
  digits := p.digits || !ds.isEmpty

/-- **Digits that fit are read one by one**: before the point they do not count for the scale, after it
there is room for 28 of them. -/
theorem Progress.read_digits (hds : ∀ c ∈ ds, c.isDigit = true)
    (hfit : valueFrom p.mantissa ds < limit)
    (hscale : if p.point then p.scale + ds.length ≤ 28 else p.scale = 0) (rest : List Char) :
    p.read (ds ++ rest) = (p.advance ds).read rest := by
  induction ds generalizing p with
  | nil =>
    have hsame : p.advance [] = p := by
      obtain ⟨negative, mantissa, scale, point, digits⟩ := p
      cases point <;> cases digits <;> simp_all [advance, valueFrom]
    rw [hsame, List.nil_append]
  | cons c ds ih =>
    obtain ⟨hc, hds⟩ := List.forall_mem_cons.1 hds
    have hle : p.mantissa * 10 + (c.toNat - 48) ≤ valueFrom p.mantissa (c :: ds) :=
      le_valueFrom _ ds
    have hroom : p.scale ≠ 28 := by
      cases hpoint : p.point <;> simp [hpoint] at hscale <;> omega
    rw [List.cons_append, Progress.read, if_neg hroom, digit?, if_pos hc]
    dsimp only
    rw [if_neg (by omega), ih hds hfit]
    · congr 1
      cases hpoint : p.point <;> simp [advance, hpoint, valueFrom_cons]
      omega
    · cases hpoint : p.point <;> simp [hpoint] at hscale ⊢
      omega

/-- The first point is passed. -/
theorem Progress.read_point (hpoint : p.point = false) (hscale : p.scale = 0) (rest : List Char) :
    p.read ('.' :: rest) = Progress.read { p with point := true } rest := by
  have hdigit : digit? '.' = none := rfl
  rw [Progress.read, if_neg (by omega), hdigit]
  exact if_pos ⟨rfl, hpoint⟩

/-- A decimal in which zero has no sign. -/
def clearZero (d : Decimal) : Decimal := { d with negative := d.negative && d.mantissa != 0 }

/-- **What has been read is a decimal** if its parts are those of one. -/
theorem Progress.finish_eq_ok (hdigits : p.digits = true) (hm : p.mantissa = d.mantissa)
    (hs : p.scale = d.scale) : p.finish = .ok (clearZero { d with negative := p.negative }) := by
  rw [finish, if_pos hdigits, hm, hs, ofParts?, dif_pos ⟨d.mantissa_lt, d.scale_le⟩]
  rfl

/-! ## The text of a decimal -/

/-- The digits and the point of a decimal, without its sign. -/
def body (d : Decimal) : List Char :=
  let ds := padded (d.scale + 1) d.mantissa
  let whole := ds.length - d.scale
  if d.scale = 0 then ds else ds.take whole ++ '.' :: ds.drop whole

theorem chars_eq (d : Decimal) : d.chars = if d.negative then '-' :: d.body else d.body := rfl

theorem read_whole {ds : List Char} (negative : Bool) (hdigits : ∀ c ∈ ds, c.isDigit = true)
    (hne : ds ≠ []) (hvalue : valueFrom 0 ds = d.mantissa) (hscale : d.scale = 0) :
    Progress.read { negative := negative } ds = .ok (clearZero { d with negative := negative }) := by
  have hread := Progress.read_digits (p := { negative := negative }) hdigits
    (hvalue.trans_lt d.mantissa_lt) rfl []
  rw [List.append_nil] at hread
  rw [hread]
  exact Progress.finish_eq_ok (by simpa [Progress.advance] using hne) hvalue hscale.symm

/-- Digits are read around a point: those behind it are the scale. -/
theorem read_fraction {ds es : List Char} (negative : Bool)
    (hdigits : ∀ c ∈ ds ++ es, c.isDigit = true) (hne : ds ≠ [])
    (hvalue : valueFrom 0 (ds ++ es) = d.mantissa) (hscale : es.length = d.scale) :
    Progress.read { negative := negative } (ds ++ '.' :: es) =
      .ok (clearZero { d with negative := negative }) := by
  obtain ⟨hds, hes⟩ := List.forall_mem_append.1 hdigits
  rw [valueFrom_append] at hvalue
  have hfirst := le_valueFrom (valueFrom 0 ds) es
  rw [hvalue] at hfirst
  rw [Progress.read_digits (p := { negative := negative }) hds (hfirst.trans_lt d.mantissa_lt) rfl,
    Progress.read_point rfl rfl]
  have hle := d.scale_le
  have hread := Progress.read_digits
    (p := { Progress.advance { negative := negative } ds with point := true }) hes
    (hvalue.trans_lt d.mantissa_lt) (by change 0 + es.length ≤ 28; omega) []
  rw [List.append_nil] at hread
  rw [hread]
  exact Progress.finish_eq_ok (by simp [Progress.advance, hne]) hvalue
    ((Nat.zero_add _).trans hscale)

/-- **The digits are read back**, and with them the sign, unless they are those of zero. -/
theorem read_body (d : Decimal) (negative : Bool) :
    Progress.read { negative := negative } d.body =
      .ok (clearZero { d with negative := negative }) := by
  have hdigits : ∀ c ∈ padded (d.scale + 1) d.mantissa, c.isDigit = true := isDigit_of_mem_padded
  have hvalue : valueFrom 0 (padded (d.scale + 1) d.mantissa) = d.mantissa := value_padded _ _
  have hlen := le_length_padded (d.scale + 1) d.mantissa
  simp only [body]
  generalize padded (d.scale + 1) d.mantissa = ds at *
  split
  case isTrue hzero =>
    exact read_whole negative hdigits (List.ne_nil_of_length_pos (by omega)) hvalue hzero
  case isFalse =>
    generalize hwhole : ds.length - d.scale = whole
    have hsplit := List.take_append_drop whole ds
    refine read_fraction negative (by rwa [hsplit]) ?_ (by rwa [hsplit]) ?_
    · exact List.ne_nil_of_length_pos (by rw [List.length_take]; omega)
    · rw [List.length_drop]
      omega

theorem body_eq_cons (d : Decimal) : ∃ c cs, d.body = c :: cs ∧ c.isDigit = true := by
  have hdigits : ∀ c ∈ padded (d.scale + 1) d.mantissa, c.isDigit = true := isDigit_of_mem_padded
  have hlen := le_length_padded (d.scale + 1) d.mantissa
  simp only [body]
  generalize padded (d.scale + 1) d.mantissa = ds at *
  cases ds with
  | nil => exact absurd hlen (Nat.not_succ_le_zero _)
  | cons c cs =>
    obtain ⟨hc, _⟩ := List.forall_mem_cons.1 hdigits
    split
    case isTrue => exact ⟨c, cs, rfl, hc⟩
    case isFalse =>
      obtain ⟨whole, hwhole⟩ : ∃ n, (c :: cs).length - d.scale = n + 1 :=
        Nat.exists_eq_succ_of_ne_zero (by omega)
      exact ⟨c, _, by rw [hwhole, List.take_succ_cons, List.cons_append], hc⟩

/-- **A decimal is read back from its text**, up to the sign of a zero. -/
theorem readChars_chars (d : Decimal) : readChars d.chars = .ok d.clearZero := by
  have hplain : readPlain d.chars = .ok d.clearZero := by
    obtain ⟨negative, mantissa, scale, hm, hs⟩ := d
    have hread := read_body ⟨negative, mantissa, scale, hm, hs⟩ negative
    rw [chars_eq]
    cases negative with
    | true => exact hread
    | false =>
      obtain ⟨c, cs, hbody, hc⟩ := body_eq_cons ⟨false, mantissa, scale, hm, hs⟩
      rw [if_neg Bool.false_ne_true]
      rw [hbody] at hread ⊢
      -- A digit is no sign, so the text is read as it stands.
      unfold readPlain
      split
      case h_1 heq => cases heq
      case h_2 heq => cases heq; cases hc
      case h_3 heq => cases heq; cases hc
      case h_4 => exact hread
  rw [readChars, hplain]

/-- **A decimal is written with digits, a hyphen and a full stop.** -/
theorem isDigit_or_eq_of_mem_chars (d : Decimal) :
    ∀ c ∈ d.chars, c.isDigit = true ∨ c = '-' ∨ c = '.' := by
  have hdigits : ∀ c ∈ padded (d.scale + 1) d.mantissa, c.isDigit = true := isDigit_of_mem_padded
  have hbody : ∀ c ∈ d.body, c.isDigit = true ∨ c = '-' ∨ c = '.' := by
    simp only [body]
    split
    case isTrue => exact fun c hc => .inl (hdigits c hc)
    case isFalse =>
      refine List.forall_mem_append.2 ⟨fun c hc => .inl (hdigits c (List.mem_of_mem_take hc)), ?_⟩
      exact List.forall_mem_cons.2 ⟨.inr (.inr rfl), fun c hc =>
        .inl (hdigits c (List.mem_of_mem_drop hc))⟩
  rw [chars_eq]
  split
  case isTrue => exact List.forall_mem_cons.2 ⟨.inr (.inl rfl), hbody⟩
  case isFalse => exact hbody

/-! ## Scales -/

/-- A decimal that has as many fractional digits as a scale asks for, or as many as fit. -/
def Settled (scale : ℕ) (d : Decimal) : Prop :=
  d.scale = scale ∨ d.scale < scale ∧ limit ≤ d.mantissa * 10

theorem settled_raise (h : d.scale + n = scale) (hscale : scale ≤ 28) :
    Settled scale (d.raise n) := by
  induction n generalizing d with
  | zero => exact .inl h
  | succ n ih =>
    rw [raise]
    split
    case isTrue => exact ih (by dsimp only; omega)
    case isFalse hfit => exact .inr ⟨by omega, by omega⟩

theorem settled_atScale (hscale : scale ≤ 28) (d : Decimal) : Settled scale (d.atScale scale) := by
  rw [atScale]
  split
  case isTrue => exact .inl rfl
  case isFalse h => exact settled_raise (by omega) hscale

/-- **A settled decimal is left as it is.** -/
theorem Settled.atScale_eq (h : Settled scale d) : d.atScale scale = d := by
  obtain heq | ⟨hlt, hfull⟩ := h
  · exact atScale_self heq
  · obtain ⟨n, hn⟩ : ∃ n, scale - d.scale = n + 1 := Nat.exists_eq_succ_of_ne_zero (by omega)
    rw [atScale, dif_neg (by omega), hn, raise, dif_neg (by omega)]

/-- The sign of a zero does not count. -/
theorem same_clearZero (scale : Scale) (d : Decimal) :
    (Domain.decimal scale).same d.clearZero d = true := by
  have hunits : d.clearZero.units = d.units := by
    by_cases hzero : d.mantissa = 0
    · simp [units, signed, clearZero, hzero]
    · simp [units, signed, clearZero, hzero]
  exact Domain.same_iff.2 (Int.compare_eq_eq.2 hunits)

/-- **A decimal in the form of its domain is read back as the same value.** -/
theorem exists_readDecimal (scale : Scale) (d : Decimal) :
    ∃ e, readChars (d.atScale scale).chars = .ok e ∧
      (Domain.decimal scale).same (e.atScale scale) (d.atScale scale) = true := by
  have hsettled : Settled scale (d.atScale scale).clearZero :=
    settled_atScale (Nat.le_of_lt_succ scale.isLt) d
  refine ⟨_, readChars_chars _, ?_⟩
  rw [hsettled.atScale_eq]
  exact same_clearZero _ _

end CatalogStats.Decimal
