import CatalogStats.Format.Yaml

/-!
# Format/YamlScalar — scalars in the text of a document

In YAML the place of a character matters, so each carries its line and its column.  A plain scalar
ends at a comment, at a colon before a gap, and between brackets also at a bracket or a comma.  It goes
on over lines that are indented far enough; a single line break then counts as a blank.
-/

namespace CatalogStats

/-- A character with its place in a text. -/
structure Glyph where
  char : Char
  line : Nat
  column : Nat
  deriving Repr, DecidableEq

namespace Glyph

/-- Gives the characters their places, from the given one on. -/
def place : Nat → Nat → List Char → List Glyph
  | _, _, [] => []
  | line, column, c :: cs =>
    ⟨c, line, column⟩ :: if c = '\n' then place (line + 1) 0 cs else place line (column + 1) cs

/-- Every kind of line break becomes the same character. -/
def unifyBreaks : List Char → List Char
  | '\r' :: '\n' :: cs => '\n' :: unifyBreaks cs
  | '\r' :: cs => '\n' :: unifyBreaks cs
  | c :: cs => c :: unifyBreaks cs
  | [] => []

/-- The characters of a text with their places; a byte order mark in front does not count. -/
def ofChars (cs : List Char) : List Glyph :=
  place 0 0 (unifyBreaks (match cs with
    | '\ufeff' :: cs => cs
    | cs => cs))

/-- The characters that a document may hold. -/
def isAllowed (c : Char) : Bool :=
  let n := c.toNat
  n == 9 || n == 10 || n == 13 || (0x20 ≤ n && n ≤ 0x7E) || n == 0x85
    || (0xA0 ≤ n && n ≤ 0xFFFD && n != 0xFEFF) || 0x10000 ≤ n

end Glyph

namespace Yaml

/-- A blank or a tab. -/
def isSpace (c : Char) : Bool := c == ' ' || c == '\t'

/-- Whether a text is at its end or goes on with a blank or a line break. -/
def atGap : List Glyph → Bool
  | [] => true
  | g :: _ => isSpace g.char || g.char == '\n'

/-- Skips blanks, line breaks and comments.  Outside brackets a tab may not indent a line. -/
def gaps (inFlow : Bool) : (atStart inComment : Bool) → List Glyph → List Glyph
  | _, _, [] => []
  | atStart, true, g :: gs =>
    if g.char = '\n' then gaps inFlow true false gs else gaps inFlow atStart true gs
  | atStart, false, g :: gs =>
    if g.char = ' ' ∨ (g.char = '\t' ∧ (inFlow ∨ ¬atStart)) then gaps inFlow atStart false gs
    else if g.char = '\n' then gaps inFlow true false gs
    else if g.char = '#' then gaps inFlow atStart true gs
    else g :: gs

/-- The blanks that a number of line breaks inside a scalar stand for. -/
def folded (breaks : Nat) : List Char :=
  if breaks = 1 then [' '] else List.replicate (breaks - 1) '\n'

/-- Skips line breaks and blanks and counts the breaks. -/
def skipBreaks : Nat → List Glyph → Nat × List Glyph
  | n, [] => (n, [])
  | n, g :: gs =>
    if g.char = '\n' then skipBreaks (n + 1) gs
    else if isSpace g.char then skipBreaks n gs
    else (n, g :: gs)

/-! ## Plain scalars -/

/-- The characters that divide the parts of a flow collection. -/
def isBracket (c : Char) : Bool := c ∈ [',', '[', ']', '{', '}']

/-- Whether a plain scalar can start here. -/
def startsPlain (inFlow : Bool) : List Glyph → Bool
  | [] => false
  | g :: gs =>
    if g.char = '-' then !atGap gs
    else if g.char = '?' ∨ g.char = ':' then !inFlow && !atGap gs
    else !(isSpace g.char || g.char == '\n' || isBracket g.char
      || g.char ∈ ['#', '&', '*', '!', '|', '>', '\x27', '"', '%', '@', '\x60'])

/-- Whether a plain scalar ends in front of a character. -/
def endsPlain (inFlow afterGap : Bool) (g : Glyph) (rest : List Glyph) : Bool :=
  g.char == '\n'
    || (g.char == '#' && afterGap)
    || (g.char == ':' && (atGap rest || (inFlow && (rest.head?.map Glyph.char).any isBracket)))
    || (inFlow && isBracket g.char)

/-- The part of a plain scalar that stands on one line, with the blanks after it. -/
def plainPart (inFlow : Bool) : Bool → List Glyph → List Char × List Glyph
  | _, [] => ([], [])
  | afterGap, g :: gs =>
    if endsPlain inFlow afterGap g gs then ([], g :: gs)
    else
      let (cs, rest) := plainPart inFlow (isSpace g.char) gs
      (g.char :: cs, rest)

/-- A text without the blanks at its end. -/
def trimEnd (cs : List Char) : List Char := (cs.reverse.dropWhile isSpace).reverse

/-- The next line of a plain scalar and the number of line breaks before it, if there is one: it is
indented to `column` at least, and it does not start with a character that ends the scalar. -/
def nextLine (inFlow : Bool) (column : Nat) : List Glyph → Option (Nat × List Glyph)
  | [] => none
  | g :: gs =>
    if g.char = '\n' then
      match skipBreaks 0 (g :: gs) with
      | (_, []) => none
      | (n, h :: rest) =>
        if endsPlain inFlow true h rest ∨ (¬inFlow ∧ h.column < column) then none
        else some (n, h :: rest)
    else none

/-- A plain scalar of one or more lines. -/
def plainLines (inFlow : Bool) (column : Nat) : Nat → List Glyph → List Char × List Glyph
  | 0, gs => ([], gs)
  | fuel + 1, gs =>
    let (part, rest) := plainPart inFlow false gs
    match nextLine inFlow column rest with
    | none => (trimEnd part, rest)
    | some (n, next) =>
      let (others, rest) := plainLines inFlow column fuel next
      (trimEnd part ++ folded n ++ others, rest)

/-! ## Quoted scalars -/

/-- The rest of a scalar in single quotes.  `blanks` are those just before. -/
def singleQuoted : Nat → List Char → List Glyph → Option (List Char × List Glyph)
  | 0, _, _ => none
  | _ + 1, _, [] => none
  | fuel + 1, blanks, g :: gs =>
    if g.char = '\x27' then
      match gs with
      | h :: rest =>
        if h.char = '\x27' then do
          let (cs, rest) ← singleQuoted fuel [] rest
          some (blanks ++ '\x27' :: cs, rest)
        else some (blanks, gs)
      | [] => some (blanks, [])
    else if g.char = '\n' then do
      let (n, rest) := skipBreaks 0 (g :: gs)
      let (cs, rest) ← singleQuoted fuel [] rest
      some (folded n ++ cs, rest)
    else if isSpace g.char then singleQuoted fuel (blanks ++ [g.char]) gs
    else do
      let (cs, rest) ← singleQuoted fuel [] gs
      some (blanks ++ g.char :: cs, rest)

/-- The character with a code point, if there is one. -/
def scalar? (n : Nat) : Option Char := if n.isValidChar then some (Char.ofNat n) else none

/-- The character of a number of hexadecimal digits. -/
def hexEscape (width : Nat) (gs : List Glyph) : Option (List Char × List Glyph) := do
  let digits := (gs.take width).map Glyph.char
  let n ← if digits.length = width then Hexadecimal.number? 16 digits else none
  let c ← scalar? n
  some ([c], gs.drop width)

/-- The characters that a single letter after a backslash stands for. -/
def letterEscape? (c : Char) : Option Char :=
  [('0', '\x00'), ('a', '\x07'), ('b', '\x08'), ('t', '\t'), ('\t', '\t'), ('n', '\n'),
    ('v', '\x0b'), ('f', '\x0c'), ('r', '\r'), ('e', '\x1b'), (' ', ' '), ('"', '"'), ('/', '/'),
    ('\\', '\\'), ('N', '\x85'), ('_', '\xa0'), ('L', '\u2028'), ('P', '\u2029')].lookup c

/-- What a backslash and the text after it stand for.  Before a line break it joins the lines. -/
def escape : List Glyph → Option (List Char × List Glyph)
  | [] => none
  | g :: gs =>
    if g.char = '\n' then
      let (n, rest) := skipBreaks 0 gs
      some (List.replicate n '\n', rest)
    else if g.char = 'x' then hexEscape 2 gs
    else if g.char = 'u' then hexEscape 4 gs
    else if g.char = 'U' then hexEscape 8 gs
    else (letterEscape? g.char).map fun c => ([c], gs)

/-- The rest of a scalar in double quotes.  `blanks` are those just before. -/
def doubleQuoted : Nat → List Char → List Glyph → Option (List Char × List Glyph)
  | 0, _, _ => none
  | _ + 1, _, [] => none
  | fuel + 1, blanks, g :: gs =>
    if g.char = '"' then some (blanks, gs)
    else if g.char = '\\' then do
      let (c, rest) ← escape gs
      let (cs, rest) ← doubleQuoted fuel [] rest
      some (blanks ++ c ++ cs, rest)
    else if g.char = '\n' then do
      let (n, rest) := skipBreaks 0 (g :: gs)
      let (cs, rest) ← doubleQuoted fuel [] rest
      some (folded n ++ cs, rest)
    else if isSpace g.char then doubleQuoted fuel (blanks ++ [g.char]) gs
    else do
      let (cs, rest) ← doubleQuoted fuel [] gs
      some (blanks ++ g.char :: cs, rest)

/-- A scalar in quotes, if one starts here. -/
def quotedScalar : List Glyph → Option (String × List Glyph)
  | [] => none
  | g :: gs =>
    let body :=
      if g.char = '"' then doubleQuoted (gs.length + 1) [] gs
      else if g.char = '\x27' then singleQuoted (gs.length + 1) [] gs
      else none
    body.map fun (cs, rest) => (String.ofList cs, rest)

/-- A plain scalar, if one starts here. -/
def plainScalar (inFlow : Bool) (column : Nat) (gs : List Glyph) :
    Option (String × List Glyph) :=
  if startsPlain inFlow gs then
    let (cs, rest) := plainLines inFlow column (gs.length + 1) gs
    some (String.ofList cs, rest)
  else none

/-- Whether a quote starts here. -/
def atQuote (gs : List Glyph) : Bool := gs.head?.any fun g => g.char == '"' || g.char == '\x27'

/-- A scalar, if one starts here. -/
def scalar (inFlow : Bool) (column : Nat) (gs : List Glyph) : Option (Yaml × List Glyph) :=
  if atQuote gs then (quotedScalar gs).map fun (s, rest) => (quoted s, rest)
  else (plainScalar inFlow column gs).map fun (s, rest) => (plain s, rest)

end Yaml

end CatalogStats
