import CatalogStats.Catalog.ColumnType

/-!
# Catalog/Column — the statistics of columns

A snapshot holds what the catalog of a database knows of each column: its type, its minimum, quantiles
with cumulative counts, and frequent values with exact counts.  Values are texts.
-/

namespace CatalogStats

/-- The full name of a column. -/
structure QualifiedName where
  schema : String
  table : String
  column : String
  deriving Repr, DecidableEq

/-- The three parts with full stops between them. -/
def QualifiedName.text (n : QualifiedName) : String :=
  n.schema ++ "." ++ n.table ++ "." ++ n.column

/-- A quantile: a boundary and the number of rows whose value is not above it. -/
structure QuantileEntry where
  boundary : String
  cumulativeCount : UInt64
  deriving Repr, DecidableEq

/-- A frequent value and the number of rows that hold it. -/
structure FrequentEntry where
  value : String
  count : UInt64
  deriving Repr, DecidableEq

/-- The statistics of a column. -/
structure Column where
  name : QualifiedName
  type : ColumnType
  /-- The least value.  A column without quantiles may lack it. -/
  reportedMin : Option String
  /-- The number of distinct values. -/
  cardinality : UInt64
  /-- The number of rows without a value. -/
  nulls : UInt64
  /-- In ascending order of their boundaries. -/
  quantiles : List QuantileEntry
  /-- In any order. -/
  frequentValues : List FrequentEntry
  deriving Repr, DecidableEq

/-- The statistics of the columns of a catalog. -/
structure Snapshot where
  columns : List Column
  deriving Repr, DecidableEq

end CatalogStats
