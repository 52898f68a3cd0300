import CatalogStats.Catalog.Column
import CatalogStats.Format.YamlReading

/-!
# Catalog/SnapshotRecord — snapshots as documents

A snapshot is a record with a list of columns; fields that have a default may be missing, and fields
with other names do not count.  `Snapshot.json` writes every field in order.
-/

namespace CatalogStats

variable {α : Type} (S : Shape α)

/-! ## Reading -/

/-- The type of a column. -/
def ColumnType.ofRecord? (a : α) : Option ColumnType := do
  match ← S.fields? ["type_name", "length", "scale"] a with
  | [name, length, scale] =>
    some {
      name := ← name.bind S.text?
      length := ← orDefault S.measure? 0 length
      scale := ← orDefault S.measure? 0 scale }
  | _ => none

/-- A quantile. -/
def QuantileEntry.ofRecord? (a : α) : Option QuantileEntry := do
  match ← S.fields? ["boundary", "cumulative_count"] a with
  | [boundary, count] =>
    some { boundary := ← boundary.bind S.text?, cumulativeCount := ← count.bind S.count? }
  | _ => none

/-- A frequent value. -/
def FrequentEntry.ofRecord? (a : α) : Option FrequentEntry := do
  match ← S.fields? ["value", "count"] a with
  | [value, count] => some { value := ← value.bind S.text?, count := ← count.bind S.count? }
  | _ => none

/-- A text that may be absent. -/
def textOrAbsent? (a : α) : Option (Option String) :=
  if S.isAbsent a then some none else (S.text? a).map some

/-- The fields of a column. -/
def Column.fieldNames : List String :=
  ["schema", "table", "column", "type", "reported_min", "cardinality", "num_nulls", "quantiles",
    "frequent_values"]

/-- The statistics of a column. -/
def Column.ofRecord? (a : α) : Option Column := do
  match ← S.fields? Column.fieldNames a with
  | [schema, table, column, type, minimum, cardinality, nulls, quantiles, frequent] =>
    let name : QualifiedName := {
      schema := ← schema.bind S.text?
      table := ← table.bind S.text?
      column := ← column.bind S.text? }
    some {
      name := name
      type := ← type.bind (ColumnType.ofRecord? S)
      reportedMin := ← orDefault (textOrAbsent? S) none minimum
      cardinality := ← orDefault S.count? 0 cardinality
      nulls := ← orDefault S.count? 0 nulls
      quantiles := ← orDefault (S.listOf? (QuantileEntry.ofRecord? S)) [] quantiles
      frequentValues := ← orDefault (S.listOf? (FrequentEntry.ofRecord? S)) [] frequent }
  | _ => none

/-- **The snapshot in a document.** -/
def Snapshot.ofRecord? (a : α) : Option Snapshot := do
  match ← S.fields? ["columns"] a with
  | [columns] => some ⟨← orDefault (S.listOf? (Column.ofRecord? S)) [] columns⟩
  | _ => none

/-- Reads a snapshot in JSON. -/
def Snapshot.ofJsonText? (text : String) : Option Snapshot := do
  Snapshot.ofRecord? Json.shape (← Json.ofText? text)

/-- Reads a snapshot in YAML. -/
def Snapshot.ofYamlText? (text : String) : Option Snapshot := do
  Snapshot.ofRecord? Yaml.shape (← Yaml.ofText? text)

/-! ## Writing -/

/-- A type as a document. -/
def ColumnType.json (t : ColumnType) : Json :=
  .object [("type_name", .string t.name), ("length", .ofNat t.length.toNat),
    ("scale", .ofNat t.scale.toNat)]

/-- A quantile as a document. -/
def QuantileEntry.json (r : QuantileEntry) : Json :=
  .object [("boundary", .string r.boundary), ("cumulative_count", .ofNat r.cumulativeCount.toNat)]

/-- A frequent value as a document. -/
def FrequentEntry.json (r : FrequentEntry) : Json :=
  .object [("value", .string r.value), ("count", .ofNat r.count.toNat)]

/-- The statistics of a column as a document. -/
def Column.json (c : Column) : Json :=
  .object [("schema", .string c.name.schema), ("table", .string c.name.table),
    ("column", .string c.name.column), ("type", c.type.json),
    ("reported_min", c.reportedMin.elim .null .string),
    ("cardinality", .ofNat c.cardinality.toNat), ("num_nulls", .ofNat c.nulls.toNat),
    ("quantiles", .list (c.quantiles.map QuantileEntry.json)),
    ("frequent_values", .list (c.frequentValues.map FrequentEntry.json))]

/-- **A snapshot as a document.** -/
def Snapshot.json (s : Snapshot) : Json := .object [("columns", .list (s.columns.map Column.json))]

end CatalogStats
