import CatalogStats.Format.YamlReading
import CatalogStats.Text.Blank

/-!
# Run/Setting — settings from a file and from the environment

A setting is a text, a truth value, a table of settings, or something that no field accepts.  In a
file its kind follows from the document; in the environment the text of a variable decides.  Settings
of the environment come over those of the file, tables entry by entry.
-/

namespace CatalogStats

/-- A setting. -/
inductive Setting where
  | text (value : String)
  | truth (value : Bool)
  | table (entries : List (String × Setting))
  /-- A number, a list, or nothing. -/
  | other

namespace Setting

/-- Puts an entry into a table in place of one of the same name. -/
def insert (entries : List (String × Setting)) (name : String) (value : Setting) :
    List (String × Setting) :=
  entries.filter (·.1 ≠ name) ++ [(name, value)]

mutual

/-- **A setting under another one.**  Tables are joined, anything else is replaced. -/
def merge : Setting → Setting → Setting
  | table entries, table more => table (mergeEntries entries more)
  | _, upper => upper

/-- Entries under others. -/
def mergeEntries (entries : List (String × Setting)) :
    List (String × Setting) → List (String × Setting)
  | [] => entries
  | (name, value) :: more =>
    let merged := match entries.lookup name with
      | some under => merge under value
      | none => value
    mergeEntries (insert entries name merged) more

end

/-! ## From a document -/

/-- The setting of a plain scalar. -/
def ofPlain (s : String) : Setting :=
  if Yaml.isNull s || Yaml.isNumber s then other
  else
    match Yaml.truth? s with
    | some b => truth b
    | none => text s

mutual

/-- The setting in a part of a document.  Of two members with one name the later counts. -/
def ofYaml : Yaml → Setting
  | .plain s => ofPlain s
  | .quoted s => text s
  | .list _ => other
  | .mapping members => table (entriesOfYaml [] members)

/-- The members of a mapping, after those already read. -/
def entriesOfYaml (entries : List (String × Setting)) :
    List (String × Yaml) → List (String × Setting)
  | [] => entries
  | (name, value) :: members => entriesOfYaml (insert entries name (ofYaml value)) members

end

/-! ## From the environment -/

/-- The blanks that do not count in a variable. -/
def isBlank (c : Char) : Bool := c ∈ [' ', '\t', '\n', '\r', '\x0c']

/-- The text after its leading blanks. -/
def skipBlanks (cs : List Char) : List Char := cs.dropWhile isBlank

/-- A number with a point. -/
def isFraction (cs : List Char) : Bool := cs.contains '.' && Yaml.isFraction (Yaml.afterSign cs)

/-- A whole number of 64 bits. -/
def isWhole (cs : List Char) : Bool :=
  (Numeral.readWhole 9223372036854775808 18446744073709551615 cs).isOk

/-- The setting of a bare word. -/
def ofWord (cs : List Char) : Setting :=
  let cs := Text.trim cs
  if isFraction cs || isWhole cs then other else text (String.ofList cs)

/-- A character of four or eight hexadecimal digits. -/
def hexCharacter (width : Nat) (cs : List Char) : Option (Char × List Char) := do
  let digits := cs.take width
  let n ← if digits.length = width then Hexadecimal.number? 16 digits else none
  let c ← Yaml.scalar? n
  some (c, cs.drop width)

/-- The character that a backslash and what follows it stand for. -/
def escape : List Char → Option (Char × List Char)
  | [] => none
  | 'u' :: cs => hexCharacter 4 cs
  | 'U' :: cs => hexCharacter 8 cs
  | c :: cs =>
    ([('b', '\x08'), ('t', '\t'), ('n', '\n'), ('f', '\x0c'), ('r', '\r'), ('"', '"'),
      ('\\', '\\')].lookup c).map fun c => (c, cs)

/-- The rest of a text in double quotes. -/
def quotedText : Nat → List Char → Option (List Char × List Char)
  | 0, _ => none
  | _ + 1, [] => none
  | fuel + 1, c :: cs =>
    if c = '"' then some ([], cs)
    else do
      let (c, rest) ← if c = '\\' then escape cs else some (c, cs)
      let (body, rest) ← quotedText fuel rest
      some (c :: body, rest)

/-- The name of an entry: letters, digits, underscores and hyphens, or a text in double quotes. -/
def entryName : List Char → Option (String × List Char)
  | '"' :: cs => (quotedText (cs.length + 1) cs).map fun (name, rest) => (String.ofList name, rest)
  | cs =>
    let isNameChar (c : Char) : Bool := c.isAlphanum || c == '_' || c == '-'
    match cs.takeWhile isNameChar with
    | [] => none
    | name => some (String.ofList name, cs.dropWhile isNameChar)

/-- What ends a bare word. -/
def isSeparator (c : Char) : Bool := c ∈ [',', '{', '}', '[', ']']

mutual

/-- A setting at the start of a text, and what follows it and its blanks. -/
def readValue : Nat → List Char → Option (Setting × List Char)
  | 0, _ => none
  | fuel + 1, cs =>
    let result : Option (Setting × List Char) :=
      match skipBlanks cs with
      | 't' :: 'r' :: 'u' :: 'e' :: rest => some (truth true, rest)
      | 'f' :: 'a' :: 'l' :: 's' :: 'e' :: rest => some (truth false, rest)
      | '{' :: rest => do
        let (entries, rest) ← readEntries fuel [] rest
        some (table entries, rest)
      | '[' :: rest => do
        let rest ← readItems fuel rest
        some (other, rest)
      | '"' :: rest => do
        let (s, rest) ← quotedText (rest.length + 1) rest
        some (text (String.ofList s), rest)
      | '\x27' :: c :: '\x27' :: rest => some (text (String.ofList [c]), rest)
      | '\x27' :: _ => none
      | cs =>
        some (ofWord (cs.takeWhile (!isSeparator ·)), cs.dropWhile (!isSeparator ·))
    result.map fun (s, rest) => (s, skipBlanks rest)

/-- The entries of a table up to its brace, after those already read. -/
def readEntries : Nat → List (String × Setting) → List Char →
    Option (List (String × Setting) × List Char)
  | 0, _, _ => none
  | _ + 1, entries, '}' :: rest => some (entries, rest)
  | fuel + 1, entries, cs => do
    let (name, rest) ← entryName (skipBlanks cs)
    match skipBlanks rest with
    | '=' :: rest => do
      let (value, rest) ← readValue fuel rest
      let entries := insert entries name value
      match rest with
      | ',' :: rest => readEntries fuel entries rest
      | '}' :: rest => some (entries, rest)
      | _ => none
    | _ => none

/-- The items of a list up to its bracket; only what follows them is of use. -/
def readItems : Nat → List Char → Option (List Char)
  | 0, _ => none
  | _ + 1, ']' :: rest => some rest
  | fuel + 1, cs => do
    let (_, rest) ← readValue fuel cs
    match rest with
    | ',' :: rest => readItems fuel rest
    | ']' :: rest => some rest
    | _ => none

end

/-- **The setting of an environment variable.**  What cannot be read as anything else is a text. -/
def ofVariable (s : String) : Setting :=
  match readValue (2 * s.length + 4) s.toList with
  | some (setting, []) => setting
  | _ => text s

end Setting

end CatalogStats
