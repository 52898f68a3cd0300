import CatalogStats.Text.Quoted

/-!
# Profile/Field — texts as fields of a line

A field stands as it is unless it could be misread: one that starts with a quote, or that holds a
vertical bar or a line break, is put between quotes.  Inside them quotes are doubled, and backslashes
and line breaks are escaped, so a field never breaks its line.
-/

namespace CatalogStats.Field

/-- The character between fields. -/
abbrev separator : Char := '|'

/-- Whether a field could be misread as it is. -/
def needsQuotes (cs : List Char) : Bool :=
  cs.head? == some Quoted.mark || cs.any fun c => c == separator || c == '\n' || c == '\r'

/-- A character between quotes. -/
def escaped (c : Char) : List Char :=
  match c with
  | '\x27' => [Quoted.mark, Quoted.mark]
  | '\\' => ['\\', '\\']
  | '\n' => ['\\', 'n']
  | '\r' => ['\\', 'r']
  | c => [c]

/-- **A text as a field.** -/
def encode (cs : List Char) : List Char :=
  if needsQuotes cs then Quoted.mark :: cs.flatMap escaped ++ [Quoted.mark] else cs

end CatalogStats.Field
