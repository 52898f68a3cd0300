import CatalogStats.Text.Hexadecimal

/-!
# Format/Json — documents in JSON and their compact text

A document keeps its numbers as they are written and the members of an object in order, repeated
names included.  `Json.chars` writes a document without blanks.
-/

namespace CatalogStats

/-- A document in JSON. -/
inductive Json where
  | null
  | bool (value : Bool)
  /-- A number as it is written. -/
  | number (literal : String)
  | string (text : String)
  /-- A string with an escape that stands for no character, or an object with such a name. -/
  | unpaired
  | list (items : List Json)
  | object (members : List (String × Json))

namespace Json

/-- A natural number as a document. -/
def ofNat (n : Nat) : Json := number (Numeral.text n)

/-- A character inside a string.  Quotes, backslashes and control characters are escaped. -/
def escaped (c : Char) : List Char :=
  match c with
  | '"' => ['\\', '"']
  | '\\' => ['\\', '\\']
  | '\n' => ['\\', 'n']
  | '\r' => ['\\', 'r']
  | '\t' => ['\\', 't']
  | '\x08' => ['\\', 'b']
  | '\x0c' => ['\\', 'f']
  | c =>
    if c.toNat < 32 then
      ['\\', 'u', '0', '0', Hexadecimal.digit (c.toNat / 16),
        Hexadecimal.digit (c.toNat % 16)]
    else [c]

/-- A string between quotes. -/
def quoted (s : String) : List Char := '"' :: s.toList.flatMap escaped ++ ['"']

mutual

/-- **The compact text of a document.** -/
def chars : Json → List Char
  | null => ['n', 'u', 'l', 'l']
  | bool true => ['t', 'r', 'u', 'e']
  | bool false => ['f', 'a', 'l', 's', 'e']
  | number literal => literal.toList
  | string text => quoted text
  | unpaired => quoted ""
  | list [] => ['[', ']']
  | list (item :: items) => '[' :: item.chars ++ charsOfItems items
  | object [] => ['{', '}']
  | object ((name, value) :: members) =>
    '{' :: quoted name ++ ':' :: value.chars ++ charsOfMembers members

/-- The items after the first of a list, with the bracket that ends it. -/
def charsOfItems : List Json → List Char
  | [] => [']']
  | item :: items => ',' :: item.chars ++ charsOfItems items

/-- The members after the first of an object, with the brace that ends it. -/
def charsOfMembers : List (String × Json) → List Char
  | [] => ['}']
  | (name, value) :: members => ',' :: quoted name ++ ':' :: value.chars ++ charsOfMembers members

end

/-- The compact text of a document as a string. -/
def text (j : Json) : String := String.ofList j.chars

end Json

end CatalogStats
