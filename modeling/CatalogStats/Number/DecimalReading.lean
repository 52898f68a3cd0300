import CatalogStats.Number.Decimal

/-!
# Number/DecimalReading — decimals from text

A decimal is written with an optional sign, digits, and at most one point among them; underscores
may separate digits.  Fractional digits that do not fit are rounded away.  A second form multiplies
such a decimal by a power of ten that follows an `e`.
-/

namespace CatalogStats.Decimal

/-- Why a text is not a decimal. -/
inductive Fault where
  | empty
  | noDigits
  | secondPoint
  | leadingSeparator
  | unknownCharacter
  | tooManyDigits
  | roundedTooLarge
  | noExponent
  | scaleTooLarge (scale : Nat)
  | tooLarge
  deriving Repr, DecidableEq

/-- The wording of a fault. -/
def Fault.message : Fault → String
  | .empty => "Invalid decimal: empty"
  | .noDigits => "Invalid decimal: no digits found"
  | .secondPoint => "Invalid decimal: two decimal points"
  | .leadingSeparator => "Invalid decimal: must start lead with a number"
  | .unknownCharacter => "Invalid decimal: unknown character"
  | .tooManyDigits => "Invalid decimal: overflow from too many digits"
  | .roundedTooLarge => "Invalid decimal: overflow from mantissa after rounding"
  | .noExponent => "Failed to parse"
  | .scaleTooLarge n => s!"Scale exceeds the maximum precision allowed: {Numeral.text n} > 28"
  | .tooLarge => "Number exceeds maximum value that can be represented."

/-- What has been read of a decimal. -/
structure Progress where
  negative : Bool
  mantissa : Nat := 0
  scale : Nat := 0
  /-- Whether the point has been passed. -/
  point : Bool := false
  /-- Whether a digit has been read. -/
  digits : Bool := false

/-- The fault of a character that may not stand where it does. -/
def strayFault (c : Char) : Fault :=
  if c = '.' then .secondPoint else if c = '_' then .leadingSeparator else .unknownCharacter

/-- The decimal read so far.  Zero has no sign. -/
def Progress.finish (p : Progress) : Except Fault Decimal :=
  if p.digits then
    match ofParts? (p.negative && p.mantissa != 0) p.mantissa p.scale with
    | some d => .ok d
    | none => .error .tooManyDigits
  else .error .noDigits

/-- Ends a decimal by the first digit that no longer fits.  Five and more round up; a mantissa that
no longer fits then loses its last digit. -/
def Progress.round (p : Progress) (digit : Nat) : Except Fault Decimal :=
  if digit < 5 then p.finish
  else if p.mantissa + 1 < limit then { p with mantissa := p.mantissa + 1 }.finish
  else if p.scale = 0 then .error .roundedTooLarge
  else { p with mantissa := (p.mantissa + 5) / 10, scale := p.scale - 1 }.finish

/-- Digits that are left over do not count, but nothing else may stand among them than
underscores. -/
def dropped : List Char → Except Fault Unit
  | [] => .ok ()
  | c :: cs => if c.isDigit ∨ c = '_' then dropped cs else .error (strayFault c)

/-- Mantissas below this bound, before their last digit, take an underscore after it for a zero. -/
def shortBound : Nat := 1844674407370954906

/-- The digit that rounds a decimal with 28 fractional digits, the first of what is left over. -/
def Progress.leftover (p : Progress) (next : Char) (rest : List Char) : Except Fault Nat :=
  match Numeral.digit? next with
  | some d => .ok d
  | none =>
    if next = '_' then
      if p.mantissa / 10 < shortBound then .ok 0 else .ok ((rest.head?.bind Numeral.digit?).getD 0)
    else .error (strayFault next)

/-- Ends a decimal with 28 fractional digits, of which `next` and `rest` are left over. -/
def Progress.overfull (p : Progress) (next : Char) (rest : List Char) : Except Fault Decimal := do
  let digit ← p.leftover next rest
  dropped rest
  p.round digit

/-- Reads the rest of a decimal after its sign. -/
def Progress.read (p : Progress) : List Char → Except Fault Decimal
  | [] => p.finish
  | c :: cs =>
    if p.scale = 28 then p.overfull c cs
    else
      match Numeral.digit? c with
      | some d =>
        let m := p.mantissa * 10 + d
        if limit ≤ m then
          if p.point then do
            dropped cs
            p.round d
          else .error .tooManyDigits
        else
          Progress.read
            { p with
              mantissa := m
              scale := if p.point then p.scale + 1 else 0
              digits := true } cs
      | none =>
        if c = '.' ∧ p.point = false then Progress.read { p with point := true } cs
        else if c = '_' ∧ p.digits then Progress.read p cs
        else .error (strayFault c)

/-- **Reads a decimal** without an exponent. -/
def readPlain : List Char → Except Fault Decimal
  | [] => .error .empty
  | '-' :: cs => Progress.read { negative := true } cs
  | '+' :: cs => Progress.read { negative := false } cs
  | cs => Progress.read { negative := false } cs

/-- A natural number of 32 bits with an optional plus sign. -/
def readExponent (cs : List Char) : Except Fault Nat :=
  let ds := match cs with
    | '+' :: ds => ds
    | ds => ds
  match Numeral.unsigned 4294967295 .tooLarge ds with
  | .ok n => .ok n
  | .error _ => .error .noExponent

/-- The decimal with another scale and the same digits. -/
def withScale (d : Decimal) (scale : Nat) : Except Fault Decimal :=
  match ofParts? d.negative d.mantissa scale with
  | some d => .ok d
  | none => .error (.scaleTooLarge scale)

/-- Multiplies by `10 ^ n`, at most `10 ^ 19` at a time. -/
def grow (d : Decimal) (n : Nat) : Option Decimal := do
  let d ← shift? (min n 19) d
  let d ← if n ≤ 19 then some d else shift? (n - 19) d
  some (d.stripped d.scale)

/-- **Reads a decimal with an exponent.** -/
def readScientific (cs : List Char) : Except Fault Decimal :=
  let isMark (c : Char) := c == 'e' || c == 'E'
  match cs.dropWhile (!isMark ·) with
  | [] => .error .noExponent
  | _ :: exponent => do
    let d ← readPlain (cs.takeWhile (!isMark ·))
    match exponent with
    | '-' :: ds =>
      let n ← readExponent ds
      if 28 < n then .error (.scaleTooLarge n) else d.withScale (d.scale + n)
    | ds =>
      let n ← readExponent ds
      if n ≤ d.scale then d.withScale (d.scale - n)
      else if 28 < n then .error (.scaleTooLarge n)
      else
        match d.grow n with
        | some d => .ok d
        | none => .error .tooLarge

/-- **Reads a decimal** in either form; the fault is that of the form with an exponent. -/
def readChars (cs : List Char) : Except Fault Decimal :=
  match readPlain cs with
  | .ok d => .ok d
  | .error _ => readScientific cs

end CatalogStats.Decimal
