import CatalogStats.Catalog.Registry
import CatalogStats.Histogram.Refinement
import CatalogStats.Profile.Basic

/-!
# Profile/Column — from the statistics of a column to its profile

The quantiles give a histogram, which the frequent values refine.  A column without quantiles is
profiled by its frequent values alone.
-/

namespace CatalogStats.Profile

/-- An exact count that took the place of the frequency of an exact bucket. -/
structure Note where
  value : String
  frequency : Nat
  count : Nat
  deriving Repr, DecidableEq

/-- A profile or why there is none, with the notes taken on the way. -/
structure Attempt where
  notes : List Note
  result : Except Column.Fault Profile

/-- Reads the text of a value in one of the statistics of a column. -/
def readValue (k : Kind) (c : Column) (s : Column.Statistic) (text : String) :
    Except Column.Fault k.Value :=
  match Literal.read k text with
  | .ok v => .ok v
  | .error cause => .error (.unreadable c.name s cause)

theorem readValue_of_ok {k : Kind} {c : Column} {s : Column.Statistic} {text : String} {v : k.Value}
    (h : Literal.read k text = .ok v) : readValue k c s text = .ok v := by
  rw [readValue, h]

/-- The frequent values of a column. -/
def tallies (k : Kind) (c : Column) : Except Column.Fault (List (Tally k.Value)) :=
  c.frequentValues.mapM fun row => do
    let value ← readValue k c .frequentValues row.value
    .ok ⟨value, row.count⟩

/-- The quantiles of a column. -/
def quantiles (k : Kind) (c : Column) :
    Except Column.Fault (List (Histogram.Quantile k.Value)) :=
  c.quantiles.mapM fun row => do
    let boundary ← readValue k c .quantiles row.boundary
    .ok ⟨boundary, row.cumulativeCount⟩

/-- The least value of a column. -/
def minimum (k : Kind) (c : Column) : Except Column.Fault k.Value :=
  match c.reportedMin with
  | some text => readValue k c .reportedMin text
  | none => .error (.noMinimum c.name)

/-- A result for a column. -/
def ofColumn {k : Kind} {β : Type} (c : Column) (r : Except (Histogram.Fault k.Value) β) :
    Except Column.Fault β :=
  match r with
  | .ok b => .ok b
  | .error cause => .error (.inconsistent c.name k cause)

/-- The histogram of the quantiles of a column. -/
def quantileHistogram (k : Kind) (c : Column) : Except Column.Fault (Histogram k.domain) := do
  let least ← minimum k c
  let rows ← quantiles k c
  ofColumn c (Histogram.ofQuantiles k.domain least rows)

/-- A bucket with its bounds as texts. -/
def Bin.ofBucket (k : Kind) (b : Bucket k.Value) : Bin where
  lower := Literal.write k b.lower
  upper := Literal.write k b.upper
  frequency := b.frequency
  exact := b.isExact k.domain

/-- The profile of a histogram. -/
def ofHistogram (k : Kind) (c : Column) (h : Histogram k.domain) : Profile where
  column := c.name
  domain := k.name
  cardinality := c.cardinality
  nulls := c.nulls
  total := h.total
  bins := h.buckets.map (Bin.ofBucket k)

/-- A note with its value as a text. -/
def Note.ofNote (k : Kind) (n : Histogram.Note k.Value) : Note :=
  ⟨k.domain.text n.value, n.frequency, n.count⟩

/-- The profile of a histogram refined by the frequent values. -/
def refined (k : Kind) (c : Column) (h : Histogram k.domain) (tallies : List (Tally k.Value)) :
    Attempt :=
  let r := h.refine tallies
  ⟨r.notes.map (Note.ofNote k), (ofColumn c r.result).map (ofHistogram k c)⟩

/-- **Profiles a column** as one of a kind. -/
def attempt (k : Kind) (c : Column) : Attempt :=
  match tallies k c with
  | .error fault => ⟨[], .error fault⟩
  | .ok tallies =>
    if c.quantiles.isEmpty then
      ⟨[], (ofColumn c (Histogram.ofTallies k.domain tallies)).map (ofHistogram k c)⟩
    else
      match quantileHistogram k c with
      | .error fault => ⟨[], .error fault⟩
      | .ok h => refined k c h tallies

/-- Profiles a column as one of the kind of its type, after any override. -/
def attemptAs (overrides : Overrides) (c : Column) : Attempt :=
  match overrides.kindOf c.name c.type with
  | .ok k => attempt k c
  | .error fault => ⟨[], .error fault⟩

/-- **Registers a column and profiles it** as one of the kind that the registry then gives. -/
def attemptIn (r : Registry) (c : Column) : Registry × Attempt :=
  match r.add c.name c.type with
  | (r, .error fault) => (r, ⟨[], .error fault⟩)
  | (r, .ok _) =>
    match r.kind c.name with
    | .error fault => (r, ⟨[], .error fault⟩)
    | .ok k => (r, attempt k c)

end CatalogStats.Profile
