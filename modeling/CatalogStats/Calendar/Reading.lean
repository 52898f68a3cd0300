import CatalogStats.Calendar.Date
import CatalogStats.Text.Blank

/-!
# Calendar/Reading — dates with or without a time of day

A date is read as year, month and day with hyphens between them.  A time of day may follow and
carries no information: after blanks and with colons, after a hyphen and with full stops, or after a
`T` and with colons.  Any number may stand after blanks.
-/

namespace CatalogStats.Calendar

open CatalogStats.Text

/-- One to `limit` digits at the start of a text, as a number, and what follows them. -/
def digitRun (limit : Nat) (cs : List Char) : Option (Nat × List Char) :=
  match Numeral.spanDigits limit cs with
  | ([], _) => none
  | (ds, rest) => some (Numeral.value ds, rest)

/-- A number of at most two digits that lies between two bounds, after any blanks. -/
def field (low high : Nat) (cs : List Char) : Option (Nat × List Char) := do
  let (n, rest) ← digitRun 2 (trimStart cs)
  if low ≤ n ∧ n ≤ high then some (n, rest) else none

/-- A year after any blanks: at most four digits, or a sign and any number of digits. -/
def year (cs : List Char) : Option (Int × List Char) :=
  match trimStart cs with
  | '-' :: rest => (digitRun rest.length rest).map fun (n, rest) => (-(n : Int), rest)
  | '+' :: rest => (digitRun rest.length rest).map fun (n, rest) => ((n : Int), rest)
  | rest => (digitRun 4 rest).map fun (n, rest) => ((n : Int), rest)

/-- What follows a mark, if the text starts with it. -/
def after (mark : Char) : List Char → Option (List Char)
  | [] => none
  | c :: cs => if c = mark then some cs else none

/-- Year, month and day at the start of a text. -/
def readCivil (cs : List Char) : Option (Civil × List Char) := do
  let (y, cs) ← year cs
  let cs ← after '-' cs
  let (m, cs) ← field 1 12 cs
  let cs ← after '-' cs
  let (d, cs) ← field 1 31 cs
  some (⟨y, m, d⟩, cs)

/-- Hour, minute and second with a mark between them, and nothing after them.  A minute may have a
leap second. -/
def isClock (mark : Char) (cs : List Char) : Bool :=
  Option.isSome do
    let (_, cs) ← field 0 23 cs
    let cs ← after mark cs
    let (_, cs) ← field 0 59 cs
    let cs ← after mark cs
    let (_, cs) ← field 0 60 cs
    if cs = [] then some () else none

/-- What may follow a date: nothing, or a time of day in one of three forms. -/
def isTail : List Char → Bool
  | [] => true
  | '-' :: cs => isClock '.' cs
  | 'T' :: cs => isClock ':' cs
  | cs => isClock ':' (trimStart cs)

end CatalogStats.Calendar

namespace CatalogStats

/-- **Reads a date**, with or without a time of day after it. -/
def Date.ofChars? (cs : List Char) : Option Date := do
  let (c, rest) ← Calendar.readCivil cs
  if Calendar.isTail rest then ofCivil? c else none

end CatalogStats
