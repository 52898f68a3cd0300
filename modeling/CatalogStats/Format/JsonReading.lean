import CatalogStats.Format.Json

/-!
# Format/JsonReading — documents from their text in JSON

The reader follows the grammar strictly: one document, blanks around its parts, no comma too many,
no control character inside a string, no zero in front of a number.  A surrogate escape without its
partner makes a string `unpaired`, and an object if it stands in a name there, which only a place that
ignores its value can accept.

Every part of a document has at least one character, so the length of the text bounds the recursion.
-/

namespace CatalogStats.Json

/-- The text after the blanks that JSON allows between parts. -/
def skipBlanks (cs : List Char) : List Char :=
  cs.dropWhile fun c => c = ' ' ∨ c = '\n' ∨ c = '\r' ∨ c = '\t'

/-! ## Strings -/

/-- Four hexadecimal digits. -/
def hexUnit : List Char → Option (Nat × List Char)
  | a :: b :: c :: d :: rest => (Hexadecimal.number? 16 [a, b, c, d]).map fun n => (n, rest)
  | _ => none

/-- Whether a unit is the first half of a character above the basic plane. -/
def isHigh (n : Nat) : Bool := 0xD800 ≤ n && n < 0xDC00

/-- Whether a unit is the second half of such a character. -/
def isLow (n : Nat) : Bool := 0xDC00 ≤ n && n < 0xE000

/-- The second half of a character, written as an escape of its own. -/
def lowHalf : List Char → Option (Nat × List Char)
  | '\\' :: 'u' :: cs =>
    match hexUnit cs with
    | some (n, rest) => if isLow n then some (n, rest) else none
    | none => none
  | _ => none

/-- What follows a backslash: the character that it stands for, none for half a character. -/
def escape : List Char → Option (Option Char × List Char)
  | '"' :: cs => some (some '"', cs)
  | '\\' :: cs => some (some '\\', cs)
  | '/' :: cs => some (some '/', cs)
  | 'n' :: cs => some (some '\n', cs)
  | 'r' :: cs => some (some '\r', cs)
  | 't' :: cs => some (some '\t', cs)
  | 'b' :: cs => some (some '\x08', cs)
  | 'f' :: cs => some (some '\x0c', cs)
  | 'u' :: cs => do
    let (n, cs) ← hexUnit cs
    if isHigh n then
      match lowHalf cs with
      | some (m, rest) => some (some (Char.ofNat (0x10000 + (n - 0xD800) * 0x400 + (m - 0xDC00))), rest)
      | none => some (none, cs)
    else if isLow n then some (none, cs)
    else some (some (Char.ofNat n), cs)
  | _ => none

/-- The characters of a string up to the quote that ends it, `none` if one of them is half a
character; and what follows the quote. -/
def stringBody : Nat → List Char → Option (Option (List Char) × List Char)
  | 0, _ => none
  | _ + 1, [] => none
  | fuel + 1, c :: cs =>
    if c = '"' then some (some [], cs)
    else if c = '\\' then do
      let (c?, cs) ← escape cs
      let (body, rest) ← stringBody fuel cs
      some (c?.bind fun c => body.map (c :: ·), rest)
    else if c.toNat < 32 then none
    else do
      let (body, rest) ← stringBody fuel cs
      some (body.map (c :: ·), rest)

/-! ## Numbers -/

/-- One or more digits. -/
def digitRun (cs : List Char) : Option (List Char × List Char) :=
  match cs.takeWhile Char.isDigit with
  | [] => none
  | ds => some (ds, cs.dropWhile Char.isDigit)

/-- The whole part of a number, which has no zero in front. -/
def wholePart : List Char → Option (List Char × List Char)
  | '0' :: cs => some (['0'], cs)
  | cs => digitRun cs

/-- A point and digits, if there is a point. -/
def fractionPart : List Char → Option (List Char × List Char)
  | '.' :: cs => do
    let (ds, rest) ← digitRun cs
    some ('.' :: ds, rest)
  | cs => some ([], cs)

/-- An exponent, if there is one. -/
def exponentPart : List Char → Option (List Char × List Char)
  | c :: cs =>
    if c = 'e' ∨ c = 'E' then
      match cs with
      | s :: ds =>
        if s = '+' ∨ s = '-' then do
          let (ds, rest) ← digitRun ds
          some (c :: s :: ds, rest)
        else do
          let (ds, rest) ← digitRun (s :: ds)
          some (c :: ds, rest)
      | [] => none
    else some ([], c :: cs)
  | [] => some ([], [])

/-- A number without its sign. -/
def unsignedNumber (cs : List Char) : Option (List Char × List Char) := do
  let (whole, cs) ← wholePart cs
  let (fraction, cs) ← fractionPart cs
  let (exponent, cs) ← exponentPart cs
  some (whole ++ fraction ++ exponent, cs)

/-- A number as it is written. -/
def numberLiteral : List Char → Option (List Char × List Char)
  | '-' :: cs => do
    let (literal, rest) ← unsignedNumber cs
    some ('-' :: literal, rest)
  | cs => unsignedNumber cs

/-! ## Documents -/

/-- A string as a document. -/
def ofBody : Option (List Char) → Json
  | some cs => string (String.ofList cs)
  | none => unpaired

/-- An object as a document. -/
def ofMembers : Option (List (String × Json)) → Json
  | some members => object members
  | none => unpaired

mutual

/-- A document at the start of a text, and what follows it. -/
def value : Nat → List Char → Option (Json × List Char)
  | 0, _ => none
  | fuel + 1, cs =>
    match skipBlanks cs with
    | 'n' :: 'u' :: 'l' :: 'l' :: rest => some (null, rest)
    | 't' :: 'r' :: 'u' :: 'e' :: rest => some (bool true, rest)
    | 'f' :: 'a' :: 'l' :: 's' :: 'e' :: rest => some (bool false, rest)
    | '"' :: rest => do
      let (body, rest) ← stringBody (rest.length + 1) rest
      some (ofBody body, rest)
    | '[' :: rest =>
      match skipBlanks rest with
      | ']' :: rest => some (list [], rest)
      | rest => do
        let (items, rest) ← items fuel rest
        some (list items, rest)
    | '{' :: rest =>
      match skipBlanks rest with
      | '}' :: rest => some (object [], rest)
      | rest => do
        let (members?, rest) ← members fuel rest
        some (ofMembers members?, rest)
    | cs => do
      let (literal, rest) ← numberLiteral cs
      some (number (String.ofList literal), rest)

/-- The items of a list from one of them to the bracket that ends it. -/
def items : Nat → List Char → Option (List Json × List Char)
  | 0, _ => none
  | fuel + 1, cs => do
    let (item, rest) ← value fuel cs
    match skipBlanks rest with
    | ',' :: rest => do
      let (others, rest) ← items fuel rest
      some (item :: others, rest)
    | ']' :: rest => some ([item], rest)
    | _ => none

/-- The members of an object from one of them to the brace that ends it, `none` if a character of a
name is half a character; and what follows the brace. -/
def members : Nat → List Char → Option (Option (List (String × Json)) × List Char)
  | 0, _ => none
  | fuel + 1, cs =>
    match skipBlanks cs with
    | '"' :: rest => do
      let (name?, rest) ← stringBody (rest.length + 1) rest
      match skipBlanks rest with
      | ':' :: rest => do
        let (item, rest) ← value fuel rest
        let member? := name?.map fun name => (String.ofList name, item)
        match skipBlanks rest with
        | ',' :: rest => do
          let (others?, rest) ← members fuel rest
          some (member?.bind fun member => others?.map (member :: ·), rest)
        | '}' :: rest => some (member?.map fun member => [member], rest)
        | _ => none
      | _ => none
    | _ => none

end

/-- **Reads a document**: one, with nothing but blanks around it. -/
def ofChars? (cs : List Char) : Option Json := do
  let (document, rest) ← value (cs.length + 1) cs
  if skipBlanks rest = [] then some document else none

/-- Reads a document from a string. -/
def ofText? (s : String) : Option Json := ofChars? s.toList

end CatalogStats.Json
