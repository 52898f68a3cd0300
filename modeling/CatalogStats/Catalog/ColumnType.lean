import CatalogStats.Domain.Kind
import CatalogStats.Text.Blank

/-!
# Catalog/ColumnType — which domain a column type has

A catalog names the type of a column and gives a length and a scale.  Names are read without the
blanks around them and without regard to case.
-/

namespace CatalogStats

/-- The type of a column as the catalog reports it. -/
structure ColumnType where
  name : String
  length : UInt32
  scale : UInt32
  deriving Repr, DecidableEq

namespace ColumnType

/-- The same length and scale under another name. -/
def withName (t : ColumnType) (name : String) : ColumnType := { t with name := name }

/-- The name without blanks around it, in capitals. -/
def canonicalName (t : ColumnType) : String := String.ofList (Text.upper (Text.trim t.name.toList))

/-- **The kind of column of a type**, none if the type is not supported. -/
def kind? (t : ColumnType) : Option Kind :=
  let decimal := Kind.decimal (Scale.clamp t.scale.toNat)
  match t.canonicalName with
  | "SMALLINT" | "INTEGER" | "INT" | "BIGINT" => some .integer
  | "NUMBER" => some (if t.scale = 0 then .integer else decimal)
  | "DECIMAL" | "NUMERIC" => some decimal
  | "DATE" => some .date
  | "CHAR" | "CHARACTER" => some (if t.length = 1 then .character else .string)
  | "VARCHAR" | "VARCHAR2" | "NVARCHAR2" | "CHARACTER VARYING" => some .string
  | _ => none

end ColumnType

end CatalogStats
