import CatalogStats.Catalog.SnapshotRecord
import CatalogStats.Profile.Column
import CatalogStats.Profile.Distribution
import CatalogStats.Run.Config

/-!
# Run/Basic — profiling all columns of a snapshot

A run reads a snapshot, makes the directory for the results and profiles column after column.  A
column that has no profile is skipped with a warning; a file that cannot be written ends the run.
-/

namespace CatalogStats.Run

/-- What a run tells on its way. -/
inductive Warning where
  /-- An exact count took the place of the frequency of an exact bucket. -/
  | countReplaced (note : Profile.Note)
  /-- A column has no profile. -/
  | skipped (column : QualifiedName) (fault : Column.Fault)

/-- The wording of a warning. -/
def Warning.message : Warning → String
  | .countReplaced _ => "Exact count differs from singleton bucket frequency. Using exact count."
  | .skipped .. => "Failed to profile column. Skipping."

/-- How many columns had which result. -/
structure Counts where
  profiled : Nat := 0
  skipped : Nat := 0
  domainFiles : Nat := 0
  deriving Repr, DecidableEq

/-! ## Snapshots -/

/-- The formats of snapshots. -/
inductive SnapshotFormat where
  | json
  | yaml
  deriving Repr, DecidableEq

/-- The name of a format. -/
def SnapshotFormat.name : SnapshotFormat → String
  | .json => "JSON"
  | .yaml => "YAML"

/-- The format of a file by its extension, in which case does not matter. -/
def SnapshotFormat.ofPath (path : String) : SnapshotFormat :=
  if (Path.ofText path).extension?.any fun e => Text.upper e.toList = ['J', 'S', 'O', 'N'] then
    .json
  else .yaml

/-- Reads a snapshot in a format. -/
def SnapshotFormat.read? : SnapshotFormat → String → Option Snapshot
  | .json => Snapshot.ofJsonText?
  | .yaml => Snapshot.ofYamlText?

/-- Why a run ended before its time. -/
inductive Fault where
  | noSnapshot (path : String)
  | malformedSnapshot (format : SnapshotFormat)
  | noDirectory (path : String)
  | noDistributionFile (path : String)
  | noDomainFile (path : String)
  deriving Repr, DecidableEq

/-- The wording of a fault. -/
def Fault.message : Fault → String
  | .noSnapshot path => s!"Failed to read catalog snapshot '{path}'."
  | .malformedSnapshot format => s!"Failed to parse catalog snapshot as {format.name}."
  | .noDirectory path => s!"Failed to create output directory '{path}'."
  | .noDistributionFile path => s!"Failed to write distribution file '{path}'."
  | .noDomainFile path => s!"Failed to write domain file '{path}'."

/-- How a run ended and what it told on its way. -/
structure Outcome where
  warnings : List Warning
  result : Except Fault Counts

/-! ## Results -/

/-- The path of a file for the results of a column. -/
def resultPath (config : Config) (column : QualifiedName) (ending : String) : String :=
  Path.join config.outputDirectory (column.text ++ ending)

section

variable {m : Type → Type} [Monad m] (S : Storage m) (config : Config)

/-- Writes the files of a profile and says whether there was a domain file among them. -/
def saveProfile (p : Profile) : m (Except Fault Bool) := do
  let path := resultPath config p.column ".dist"
  if ← S.writeText path p.distribution then
    match if config.writeDomainFiles then p.domainFile? else none with
    | none => return .ok false
    | some text =>
      let path := resultPath config p.column ".domain"
      if ← S.writeText path text then return .ok true else return .error (.noDomainFile path)
  else return .error (.noDistributionFile path)

/-- The outcome after further warnings at its start. -/
def Outcome.after (warnings : List Warning) (o : Outcome) : Outcome :=
  { o with warnings := warnings ++ o.warnings }

/-- **Profiles columns** one after the other, on top of earlier counts and registered columns. -/
def profileColumns (registry : Registry) (counts : Counts) : List Column → m Outcome
  | [] => return ⟨[], .ok counts⟩
  | c :: cs => do
    let (registry, attempt) := Profile.attemptIn registry c
    let notes := attempt.notes.map Warning.countReplaced
    match attempt.result with
    | .error fault =>
      let counts := { counts with skipped := counts.skipped + 1 }
      let others ← profileColumns registry counts cs
      return others.after (notes ++ [.skipped c.name fault])
    | .ok p =>
      match ← saveProfile S config p with
      | .error fault => return ⟨notes, .error fault⟩
      | .ok hasDomainFile =>
        let counts := { counts with
          profiled := counts.profiled + 1
          domainFiles := counts.domainFiles + if hasDomainFile then 1 else 0 }
        let others ← profileColumns registry counts cs
        return others.after notes

/-- Reads the snapshot. -/
def readSnapshot : m (Except Fault Snapshot) := do
  match ← S.readText config.catalogPath with
  | none => return .error (.noSnapshot config.catalogPath)
  | some text =>
    let format := SnapshotFormat.ofPath config.catalogPath
    match format.read? text with
    | some snapshot => return .ok snapshot
    | none => return .error (.malformedSnapshot format)

/-- **Profiles all columns of the snapshot.** -/
def perform : m Outcome := do
  match ← readSnapshot S config with
  | .error fault => return ⟨[], .error fault⟩
  | .ok snapshot =>
    if ← S.makeDirectory config.outputDirectory then
      profileColumns S config (.empty config.overrides) {} snapshot.columns
    else return ⟨[], .error (.noDirectory config.outputDirectory)⟩

end

end CatalogStats.Run
