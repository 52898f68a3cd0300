import CatalogStats.Calendar.Reading
import CatalogStats.Domain.Kind
import CatalogStats.Number.DecimalReading
import CatalogStats.Text.Quoted

/-!
# Catalog/Literal — the catalog's texts of values

A catalog gives every value as a text, quoted or not.  `Literal.read` reads such a text as a value of
a kind of column and `Literal.write` writes a value.  Blanks around a number or a date do not count;
in a text or a character they do.
-/

namespace CatalogStats.Literal

/-- Why a text is no value of its kind. -/
inductive Reason where
  | whole (fault : Numeral.Fault)
  | decimal (fault : Decimal.Fault)
  | noDate
  | noCharacter
  | severalCharacters
  deriving Repr, DecidableEq

/-- The wording of a reason. -/
def Reason.message : Reason → String
  | .whole fault => fault.message
  | .decimal fault => fault.message
  | .noDate => "expected a date in YYYY-MM-DD form"
  | .noCharacter => "expected a single character, got none"
  | .severalCharacters => "expected a single character, got several"

/-- A text that is no value of a kind of column. -/
structure Fault where
  kind : Kind
  text : String
  reason : Reason
  deriving Repr, DecidableEq

/-- The wording of a fault. -/
def Fault.message (f : Fault) : String :=
  s!"'{f.text}' is not a valid {f.kind.name} value: {f.reason.message}"

/-- A text without blanks around it and without its quotes. -/
def bare (cs : List Char) : List Char := Text.trim (Quoted.decode (Text.trim cs))

/-- A single character. -/
def readCharacter : List Char → Except Reason Char
  | [] => .error .noCharacter
  | [c] => .ok c
  | _ => .error .severalCharacters

/-- A whole number of 64 bits. -/
def readInteger (cs : List Char) : Except Reason Whole :=
  match Numeral.readWhole 9223372036854775808 9223372036854775807 cs with
  | .error fault => .error (.whole fault)
  | .ok n =>
    match Whole.ofInt? n with
    | some v => .ok v
    | none => .error (.whole .tooLarge)

/-- A decimal, rounded to a scale. -/
def readDecimal (scale : Scale) (cs : List Char) : Except Reason Decimal :=
  match Decimal.readChars cs with
  | .ok d => .ok (d.atScale scale)
  | .error fault => .error (.decimal fault)

/-- A date. -/
def readDate (cs : List Char) : Except Reason Date :=
  match Date.ofChars? cs with
  | some d => .ok d
  | none => .error .noDate

/-- The value that a text stands for, or the reason why it stands for none. -/
def readChars : (k : Kind) → List Char → Except Reason k.Value
  | .integer, cs => readInteger (bare cs)
  | .decimal scale, cs => readDecimal scale (bare cs)
  | .date, cs => readDate (bare cs)
  | .character, cs => readCharacter (Quoted.decode cs)
  | .string, cs => .ok (String.ofList (Quoted.decode cs))

/-- **Reads a value of a kind of column.** -/
def read (k : Kind) (text : String) : Except Fault k.Value :=
  match readChars k text.toList with
  | .ok v => .ok v
  | .error reason => .error ⟨k, text, reason⟩

/-- **Writes a value of a kind of column.** -/
def write (k : Kind) (v : k.Value) : String := k.domain.text (k.canonical v)

end CatalogStats.Literal
