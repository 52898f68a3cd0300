import CatalogStats.Catalog.Fault

/-!
# Catalog/Registry — the kinds of known columns

The kind of a column follows from its type, or from the type name that an override puts in its place.
A registry keeps the kinds of the columns that were registered.
-/

namespace CatalogStats

/-- Type names by the text of a full column name. -/
abbrev Overrides := List (String × String)

namespace Overrides

/-- The type of a column after any override. -/
def typeOf (overrides : Overrides) (column : QualifiedName) (type : ColumnType) : ColumnType :=
  match overrides.lookup column.text with
  | some name => type.withName name
  | none => type

/-- **The kind of a column**, or that its type is not supported. -/
def kindOf (overrides : Overrides) (column : QualifiedName) (type : ColumnType) :
    Except Column.Fault Kind :=
  let type := overrides.typeOf column type
  match type.kind? with
  | some kind => .ok kind
  | none => .error (.unsupported column type.name)

end Overrides

/-- The kinds of registered columns, each column listed once. -/
structure Registry where
  overrides : Overrides
  kinds : List (QualifiedName × Kind)

namespace Registry

/-- A registry that knows no column. -/
def empty (overrides : Overrides) : Registry := ⟨overrides, []⟩

/-- Registers a column in place of an earlier one of the same name. -/
def insert (r : Registry) (column : QualifiedName) (kind : Kind) : Registry :=
  { r with kinds := (column, kind) :: r.kinds.filter fun entry => entry.1 ≠ column }

/-- **Registers a column.**  A column whose type is not supported leaves the registry as it is. -/
def add (r : Registry) (column : QualifiedName) (type : ColumnType) :
    Registry × Except Column.Fault Kind :=
  match r.overrides.kindOf column type with
  | .ok kind => (r.insert column kind, .ok kind)
  | .error fault => (r, .error fault)

/-- The kind of a registered column. -/
def kind (r : Registry) (column : QualifiedName) : Except Column.Fault Kind :=
  match r.kinds.lookup column with
  | some kind => .ok kind
  | none => .error (.unregistered column)

/-- The number of registered columns. -/
def size (r : Registry) : Nat := r.kinds.length

end Registry

end CatalogStats
