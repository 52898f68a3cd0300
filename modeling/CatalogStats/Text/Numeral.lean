/-!
# Text/Numeral — numbers written in base ten

`digits` writes a natural number, most significant digit first and without leading zeros; `value`
reads a run of digits back.  `readWhole` reads a signed number between two bounds and says why a
text is none.
-/

namespace CatalogStats.Numeral

/-! ## Digits -/

/-- The character of a digit below ten. -/
def digitChar (d : Nat) : Char := Char.ofNat (48 + d)

/-- The digit that a character stands for, if it is one of the ten ASCII digits. -/
def digit? (c : Char) : Option Nat := if c.isDigit then some (c.toNat - 48) else none

/-- The digits of `n` in front of `tail`.  The first argument bounds the number of digits. -/
def digitsOnto : Nat → Nat → List Char → List Char
  | 0, _, tail => tail
  | fuel + 1, n, tail =>
    if n < 10 then digitChar n :: tail
    else digitsOnto fuel (n / 10) (digitChar (n % 10) :: tail)

/-- **The digits of a natural number**, most significant first; zero is written `0`. -/
def digits (n : Nat) : List Char := digitsOnto (n + 1) n []

/-- A natural number as a text. -/
def text (n : Nat) : String := String.ofList (digits n)

/-- An integer as characters: a hyphen in front of the digits of a negative number. -/
def signedDigits : Int → List Char
  | .ofNat n => digits n
  | .negSucc n => '-' :: digits (n + 1)

/-- The digits of `n`, with zeros in front up to `width` characters. -/
def padded (width n : Nat) : List Char :=
  let ds := digits n
  List.replicate (width - ds.length) '0' ++ ds

/-- The number that a run of digits continues `n` to. -/
def valueFrom (n : Nat) (ds : List Char) : Nat := ds.foldl (fun n c => n * 10 + (c.toNat - 48)) n

/-- **The number that a run of digits stands for.** -/
def value (ds : List Char) : Nat := valueFrom 0 ds

/-- The longest run of digits at the start of a text, at most `limit` of them, and what follows. -/
def spanDigits (limit : Nat) (cs : List Char) : List Char × List Char :=
  let run := (cs.take limit).takeWhile Char.isDigit
  (run, cs.drop run.length)

/-! ## Signed numbers with bounds -/

/-- Why a text is not a whole number between the bounds. -/
inductive Fault where
  | empty
  | invalidDigit
  | tooLarge
  | tooSmall
  deriving Repr, DecidableEq

/-- The wording of a fault. -/
def Fault.message : Fault → String
  | .empty => "cannot parse integer from empty string"
  | .invalidDigit => "invalid digit found in string"
  | .tooLarge => "number too large to fit in target type"
  | .tooSmall => "number too small to fit in target type"

/-- Reads digits up to the end of the text.  The number may not pass `limit`; the first character
that is no digit, or that carries the number past `limit`, decides the fault. -/
def magnitude (limit : Nat) (past : Fault) : Nat → List Char → Except Fault Nat
  | n, [] => .ok n
  | n, c :: cs =>
    match digit? c with
    | none => .error .invalidDigit
    | some d => if limit < n * 10 + d then .error past else magnitude limit past (n * 10 + d) cs

/-- Digits without a sign: at least one, and a number of at most `limit`. -/
def unsigned (limit : Nat) (past : Fault) : List Char → Except Fault Nat
  | [] => .error .invalidDigit
  | c :: cs => magnitude limit past 0 (c :: cs)

/-- **A whole number between `-low` and `high`**: an optional sign, then digits only. -/
def readWhole (low high : Nat) : List Char → Except Fault Int
  | [] => .error .empty
  | '-' :: cs => (unsigned low .tooSmall cs).map fun n => -(n : Int)
  | '+' :: cs => (unsigned high .tooLarge cs).map fun n => (n : Int)
  | cs => (unsigned high .tooLarge cs).map fun n => (n : Int)

end CatalogStats.Numeral
