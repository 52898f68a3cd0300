import CatalogStats.Format.JsonReading

/-!
# Format/Shape — what a record reader asks of a document

Records are read alike from documents of different formats.  A shape says how a format answers the
questions of the reader: whether a part is a text, a number, a list, or a record with given fields.
-/

namespace CatalogStats

/-- How the parts of documents of a format are read. -/
structure Shape (α : Type) where
  text? : α → Option String
  /-- A natural number of at most the given one. -/
  natural? : Nat → α → Option Nat
  /-- Whether the part stands for a value that is not there. -/
  isAbsent : α → Bool
  list? : α → Option (List α)
  /-- The parts under the given field names, in their order.  No record has a field twice. -/
  fields? : List String → α → Option (List (Option α))

namespace Shape

variable {α : Type} (S : Shape α)

/-- A number of 64 bits. -/
def count? (a : α) : Option UInt64 := (S.natural? 18446744073709551615 a).map (·.toUInt64)

/-- A number of 32 bits. -/
def measure? (a : α) : Option UInt32 := (S.natural? 4294967295 a).map (·.toUInt32)

/-- A list of which every item can be read. -/
def listOf? {β : Type} (item? : α → Option β) (a : α) : Option (List β) := do
  (← S.list? a).mapM item?

end Shape

/-- What stands in an optional field, or a default where the field is missing. -/
def orDefault {α β : Type} (read? : α → Option β) (fallback : β) : Option α → Option β
  | none => some fallback
  | some a => read? a

/-- The part under a name, if there is one; fails when there are several. -/
def member? {α : Type} (members : List (String × α)) (name : String) : Option (Option α) :=
  match members.filter (·.1 = name) with
  | [] => some none
  | [(_, value)] => some (some value)
  | _ => none

namespace Json

/-- A number that is written as digits only. -/
def natural? (limit : Nat) : Json → Option Nat
  | number literal => (Numeral.unsigned limit .tooLarge literal.toList).toOption
  | _ => none

/-- **Records in JSON**: objects, or lists of the fields in order.  Fields at the end of such a list
may be missing. -/
def shape : Shape Json where
  text?
    | string text => some text
    | _ => none
  natural? := natural?
  isAbsent
    | null => true
    | _ => false
  list?
    | list items => some items
    | _ => none
  fields? names
    | object members => names.mapM (member? members)
    | list items =>
      if items.length ≤ names.length then
        some (items.map some ++ List.replicate (names.length - items.length) none)
      else none
    | _ => none

end Json

end CatalogStats
