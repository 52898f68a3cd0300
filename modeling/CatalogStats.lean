import CatalogStats.Calendar.Civil
import CatalogStats.Calendar.Date
import CatalogStats.Calendar.Reading
import CatalogStats.Catalog.Column
import CatalogStats.Catalog.ColumnType
import CatalogStats.Catalog.Fault
import CatalogStats.Catalog.Literal
import CatalogStats.Catalog.Registry
import CatalogStats.Catalog.SnapshotRecord
import CatalogStats.Domain.Basic
import CatalogStats.Domain.Character
import CatalogStats.Domain.Grid
import CatalogStats.Domain.Integer
import CatalogStats.Domain.Kind
import CatalogStats.Domain.Numbered
import CatalogStats.Domain.Phrase
import CatalogStats.Format.Json
import CatalogStats.Format.JsonReading
import CatalogStats.Format.Shape
import CatalogStats.Format.Yaml
import CatalogStats.Format.YamlReading
import CatalogStats.Format.YamlScalar
import CatalogStats.Histogram.Allotment
import CatalogStats.Histogram.Basic
import CatalogStats.Histogram.Bucket
import CatalogStats.Histogram.Estimate
import CatalogStats.Histogram.Fault
import CatalogStats.Histogram.Quantiles
import CatalogStats.Histogram.Refinement
import CatalogStats.Main
import CatalogStats.Number.Binary64
import CatalogStats.Number.Decimal
import CatalogStats.Number.DecimalReading
import CatalogStats.Number.Power
import CatalogStats.Number.Shortest
import CatalogStats.Profile.Basic
import CatalogStats.Profile.Column
import CatalogStats.Profile.Distribution
import CatalogStats.Profile.Field
import CatalogStats.Run.Basic
import CatalogStats.Run.Command
import CatalogStats.Run.Config
import CatalogStats.Run.Setting
import CatalogStats.Storage.Basic
import CatalogStats.Storage.Path
import CatalogStats.Storage.Tree
import CatalogStats.Text.Blank
import CatalogStats.Text.Hexadecimal
import CatalogStats.Text.Numeral
import CatalogStats.Text.Quoted
import CatalogStats.Proofs.Calendar.Civil
import CatalogStats.Proofs.Calendar.Reading
import CatalogStats.Proofs.Catalog.Literal
import CatalogStats.Proofs.Catalog.SnapshotRoundTrip
import CatalogStats.Proofs.Domain.Lattice
import CatalogStats.Proofs.Domain.Laws
import CatalogStats.Proofs.Domain.Steps
import CatalogStats.Proofs.Format.JsonRoundTrip
import CatalogStats.Proofs.Histogram.Acceptance
import CatalogStats.Proofs.Histogram.Allotment
import CatalogStats.Proofs.Histogram.Batches
import CatalogStats.Proofs.Histogram.Cutting
import CatalogStats.Proofs.Histogram.Cumulative
import CatalogStats.Proofs.Histogram.Enumeration
import CatalogStats.Proofs.Histogram.Estimates
import CatalogStats.Proofs.Histogram.Exactness
import CatalogStats.Proofs.Histogram.Gathering
import CatalogStats.Proofs.Histogram.Groups
import CatalogStats.Proofs.Histogram.Idempotence
import CatalogStats.Proofs.Histogram.Internal
import CatalogStats.Proofs.Histogram.Lookup
import CatalogStats.Proofs.Histogram.Making
import CatalogStats.Proofs.Histogram.Outcome
import CatalogStats.Proofs.Histogram.Parts
import CatalogStats.Proofs.Histogram.Permutation
import CatalogStats.Proofs.Histogram.Proportion
import CatalogStats.Proofs.Histogram.Quantiles
import CatalogStats.Proofs.Histogram.Quotas
import CatalogStats.Proofs.Histogram.Remainders
import CatalogStats.Proofs.Histogram.Replacement
import CatalogStats.Proofs.Histogram.Rounds
import CatalogStats.Proofs.Histogram.Runs
import CatalogStats.Proofs.Histogram.Statistics
import CatalogStats.Proofs.Histogram.Success
import CatalogStats.Proofs.Histogram.Tallies
import CatalogStats.Proofs.Histogram.Tiling
import CatalogStats.Proofs.Histogram.Validity
import CatalogStats.Proofs.Number.Binary64
import CatalogStats.Proofs.Number.Characters
import CatalogStats.Proofs.Number.DecimalSpans
import CatalogStats.Proofs.Number.DecimalText
import CatalogStats.Proofs.Number.Rounding
import CatalogStats.Proofs.Preliminaries
import CatalogStats.Proofs.Profile.Enumeration
import CatalogStats.Proofs.Profile.Reading
import CatalogStats.Proofs.Profile.Shares
import CatalogStats.Proofs.Storage.Making
import CatalogStats.Proofs.Storage.Paths
import CatalogStats.Proofs.Storage.Writing
import CatalogStats.Proofs.Run.Steps
import CatalogStats.Proofs.Run.Files
import CatalogStats.Proofs.Run.Independence
import CatalogStats.Proofs.Run.Leftovers
import CatalogStats.Proofs.Run.Outputs
import CatalogStats.Proofs.Text.Numerals
import CatalogStats.Proofs.Text.Quoting
import CatalogStats.Proofs.Number.DecimalSteps
