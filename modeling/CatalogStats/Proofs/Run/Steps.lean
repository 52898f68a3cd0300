import CatalogStats.Proofs.Profile.Shares
import CatalogStats.Proofs.Storage.Writing
import CatalogStats.Run.Basic

/-!
# Proofs/Run/Steps — what a run does, column after column

What a run does for a column depends on nothing but the column and the configuration: registering it
first makes no difference, whatever was registered before (`attemptIn_eq`).  So a run that ends well
has told the warnings of its columns in order, counted them, and written their files in order
(`profileColumns_eq_ok_iff`, `finishes_iff`).
-/

namespace CatalogStats

namespace Profile

variable {r : Registry} {c : Column} {k : Kind} {fault : Column.Fault}

/-- A column of a supported type is registered and profiled as one of its kind… -/
theorem attemptIn_of_ok (h : r.overrides.kindOf c.name c.type = .ok k) :
    attemptIn r c = (r.insert c.name k, attempt k c) := by
  have hadd : r.add c.name c.type = (r.insert c.name k, .ok k) := by rw [Registry.add, h]
  have hkind : (r.insert c.name k).kind c.name = .ok k := by
    rw [Registry.kind, Registry.insert, List.lookup_cons_self]
  simp only [attemptIn, hadd, hkind]

/-- …and any other is not registered. -/
theorem attemptIn_of_error (h : r.overrides.kindOf c.name c.type = .error fault) :
    attemptIn r c = (r, ⟨[], .error fault⟩) := by
  have hadd : r.add c.name c.type = (r, .error fault) := by rw [Registry.add, h]
  rw [attemptIn, hadd]

/-- **Registering a column first makes no difference** to its profile, and overrides stay. -/
theorem attemptIn_eq (r : Registry) (c : Column) :
    (attemptIn r c).2 = attemptAs r.overrides c ∧ (attemptIn r c).1.overrides = r.overrides := by
  rw [attemptAs]
  cases h : r.overrides.kindOf c.name c.type with
  | error fault =>
    rw [attemptIn_of_error h]
    exact ⟨rfl, rfl⟩
  | ok k =>
    rw [attemptIn_of_ok h]
    exact ⟨rfl, rfl⟩

/-- The profile of a column bears its name. -/
theorem column_of_attemptAs {overrides : Overrides} {p : Profile}
    (h : (attemptAs overrides c).result = .ok p) : p.column = c.name := by
  rw [attemptAs] at h
  split at h
  · obtain ⟨s, rfl⟩ := exists_histogram_of_attempt h
    rfl
  · cases h

/-- The profile of a column without statistics: it has no bins. -/
def bare (k : Kind) (c : Column) : Profile where
  column := c.name
  domain := k.name
  cardinality := c.cardinality
  nulls := c.nulls
  total := 0
  bins := []

theorem attempt_of_no_statistics (hq : c.quantiles = []) (hf : c.frequentValues = []) :
    (attempt k c).result = .ok (bare k c) := by
  have hvalid : Histogram.Valid k.domain [] := ⟨nofun, .nil, Nat.zero_lt_succ _⟩
  have hsorted : Histogram.sorted k.domain [] = [] := List.mergeSort_nil
  have hempty : Histogram.ofTallies k.domain [] = .ok ⟨[], hvalid⟩ := by
    rw [Histogram.ofTallies, Histogram.distinct, hsorted]
    exact Histogram.ofBuckets_of_valid hvalid
  have htallies : tallies k c = .ok [] := by
    rw [tallies, hf]
    rfl
  rw [attempt, htallies, hq]
  change (ofColumn c (Histogram.ofTallies k.domain [])).map (ofHistogram k c) = _
  rw [hempty]
  rfl

theorem attemptAs_nil (h : c.type.kind? = some k) : attemptAs [] c = attempt k c := by
  have htype : Overrides.typeOf [] c.name c.type = c.type := rfl
  have hkind : Overrides.kindOf [] c.name c.type = .ok k := by
    simp only [Overrides.kindOf, htype, h]
  rw [attemptAs, hkind]

end Profile

namespace Run

/-! ## Results of a column -/

/-- The files of a column. -/
inductive Result where
  | distribution
  | domain
  deriving Repr, DecidableEq

/-- How the name of a file ends. -/
def Result.ending : Result → String
  | .distribution => ".dist"
  | .domain => ".domain"

variable (config : Config)

/-- The path of a file of a column. -/
def Result.path (r : Result) (column : QualifiedName) : String :=
  resultPath config column r.ending

/-- The text of a file, if it is to be written. -/
def Result.text? (p : Profile) : Result → Option String
  | .distribution => some p.distribution
  | .domain => if config.writeDomainFiles then p.domainFile? else none

/-- A file with its path. -/
def fileOf (r : Result) (p : Profile) : Option (String × String) :=
  (r.text? config p).map fun text => (r.path config p.column, text)

/-- The files of a profile in the order in which they are written. -/
def savedFiles (p : Profile) : List (String × String) :=
  [Result.distribution, Result.domain].filterMap fun r => fileOf config r p

variable {config : Config} {p : Profile} {t u : FileTree}

theorem savedFiles_of_none (h : Result.domain.text? config p = none) : savedFiles config p =
    [(resultPath config p.column ".dist", p.distribution)] := by
  rw [savedFiles, List.filterMap_cons, List.filterMap_cons, fileOf, fileOf, h]
  rfl

theorem savedFiles_of_some {text : String} (h : Result.domain.text? config p = some text) :
    savedFiles config p = [(resultPath config p.column ".dist", p.distribution),
      (resultPath config p.column ".domain", text)] := by
  rw [savedFiles, List.filterMap_cons, List.filterMap_cons, fileOf, fileOf, h]
  rfl

/-- A step of a run, and the steps after it. -/
theorem run_bind {α β : Type} (x : StateM FileTree α) (f : α → StateM FileTree β) (t : FileTree) :
    (x >>= f).run t = (f (x.run t).1).run (x.run t).2 := rfl

theorem run_readText (t : FileTree) (path : String) :
    (FileTree.storage.readText path).run t = (t.readText path, t) := rfl

theorem run_makeDirectory (t : FileTree) (path : String) :
    (FileTree.storage.makeDirectory path).run t =
      ((t.makeDirectory path).2, (t.makeDirectory path).1) := rfl

/-- A run goes on after a file was written, and ends if it could not be. -/
theorem run_writeText_eq_ok_iff {ε β : Type} {path text : String} {fault : ε} {b : β}
    {rest : StateM FileTree (Except ε β)} :
    (do if ← FileTree.storage.writeText path text then rest else return .error fault).run t =
        (.ok b, u) ↔
      t.Accepts path ∧ rest.run (t.writeText path text).1 = (.ok b, u) := by
  change (if (t.writeText path text).2 then rest else pure (.error fault)).run
    (t.writeText path text).1 = _ ↔ _
  rw [← FileTree.writeText_snd_iff]
  cases (t.writeText path text).2 with
  | false => exact ⟨nofun, nofun⟩
  | true => exact (and_iff_right rfl).symm

theorem run_return_eq_iff {β : Type} {b b' : β} :
    (return b' : StateM FileTree β).run t = (b, u) ↔ b = b' ∧ u = t := by
  constructor
  · rintro ⟨⟩
    exact ⟨rfl, rfl⟩
  · rintro ⟨rfl, rfl⟩
    rfl

/-- **Saving a profile** writes its files. -/
theorem saveProfile_eq_ok_iff {b : Bool} :
    (saveProfile FileTree.storage config p).run t = (.ok b, u) ↔
      (∀ f ∈ savedFiles config p, t.Accepts f.1) ∧
      b = (Result.domain.text? config p).isSome ∧ u = t.writeAll (savedFiles config p) := by
  have hwanted : (if config.writeDomainFiles then p.domainFile? else none) =
      Result.domain.text? config p := rfl
  rw [saveProfile, run_writeText_eq_ok_iff, hwanted]
  cases hdomain : Result.domain.text? config p with
  | none =>
    rw [savedFiles_of_none hdomain, List.forall_mem_singleton, run_return_eq_iff, Except.ok.injEq]
    rfl
  | some text =>
    rw [savedFiles_of_some hdomain, List.forall_mem_cons, List.forall_mem_singleton, and_assoc,
      run_writeText_eq_ok_iff, run_return_eq_iff, Except.ok.injEq,
      (FileTree.sameDirectories_writeText t _ _).accepts]
    rfl

/-! ## Columns one after the other -/

/-- What profiling a column comes to. -/
def attemptOf (config : Config) (c : Column) : Profile.Attempt :=
  Profile.attemptAs config.overrides c

/-- The profile of a column. -/
def profile? (config : Config) (c : Column) : Option Profile :=
  (attemptOf config c).result.toOption

/-- Why a column is skipped. -/
def skip? (config : Config) (c : Column) : Option (QualifiedName × Column.Fault) :=
  match (attemptOf config c).result with
  | .ok _ => none
  | .error fault => some (c.name, fault)

/-- What a run tells of a column. -/
def warnings (config : Config) (c : Column) : List Warning :=
  (attemptOf config c).notes.map .countReplaced ++
    (skip? config c).toList.map fun (column, fault) => .skipped column fault

/-- The profiles of columns. -/
def profiles (config : Config) (cs : List Column) : List Profile := cs.filterMap (profile? config)

/-- The files that a run writes for columns. -/
def allFiles (config : Config) (cs : List Column) : List (String × String) :=
  (profiles config cs).flatMap (savedFiles config)

/-- The counts after more columns. -/
def Counts.after (counts : Counts) (config : Config) (cs : List Column) : Counts where
  profiled := counts.profiled + (profiles config cs).length
  skipped := counts.skipped + (cs.filterMap (skip? config)).length
  domainFiles :=
    counts.domainFiles + ((profiles config cs).filterMap (Result.domain.text? config)).length

section Column

variable {c : Column} {fault : Column.Fault}

theorem skip?_of_error (h : (attemptOf config c).result = .error fault) :
    skip? config c = some (c.name, fault) := by
  rw [skip?, h]

theorem skip?_of_ok (h : (attemptOf config c).result = .ok p) : skip? config c = none := by
  rw [skip?, h]

theorem warnings_of_error (h : (attemptOf config c).result = .error fault) : warnings config c =
    (attemptOf config c).notes.map .countReplaced ++ [.skipped c.name fault] := by
  rw [warnings, skip?_of_error h]
  rfl

theorem warnings_of_ok (h : (attemptOf config c).result = .ok p) :
    warnings config c = (attemptOf config c).notes.map .countReplaced := by
  rw [warnings, skip?_of_ok h]
  exact List.append_nil _

theorem profiles_cons_of_error (h : (attemptOf config c).result = .error fault) (cs : List Column) :
    profiles config (c :: cs) = profiles config cs :=
  List.filterMap_cons_none (by rw [profile?, h]; rfl)

theorem profiles_cons_of_ok (h : (attemptOf config c).result = .ok p) (cs : List Column) :
    profiles config (c :: cs) = p :: profiles config cs :=
  List.filterMap_cons_some (by rw [profile?, h]; rfl)

/-- A skipped column is counted as one. -/
theorem after_cons_of_error (h : (attemptOf config c).result = .error fault) (counts : Counts)
    (cs : List Column) : counts.after config (c :: cs) =
      Counts.after { counts with skipped := counts.skipped + 1 } config cs := by
  rw [Counts.after, Counts.after, profiles_cons_of_error h,
    List.filterMap_cons_some (skip?_of_error h), List.length_cons, Nat.add_right_comm,
    Nat.add_assoc counts.skipped]

/-- …and so is a profiled one, with its domain file. -/
theorem after_cons_of_ok (h : (attemptOf config c).result = .ok p) (counts : Counts)
    (cs : List Column) : counts.after config (c :: cs) =
      Counts.after { counts with
        profiled := counts.profiled + 1
        domainFiles := counts.domainFiles + if (Result.domain.text? config p).isSome then 1 else 0 }
        config cs := by
  rw [Counts.after, Counts.after, profiles_cons_of_ok h, List.filterMap_cons_none (skip?_of_ok h),
    List.filterMap_cons, List.length_cons, Nat.add_right_comm, Nat.add_assoc counts.profiled]
  cases Result.domain.text? config p with
  | none => rfl
  | some text =>
    simp only [List.length_cons, Option.isSome_some, if_true]
    rw [Nat.add_right_comm counts.domainFiles 1, Nat.add_assoc counts.domainFiles]

end Column

/-- Warnings come in front of those of the rest of a run. -/
theorem run_after_eq_iff {notes others ws : List Warning} {n : Counts}
    {rest : StateM FileTree Outcome} {P Q : Prop}
    (h : ∀ {ws}, rest.run t = (⟨ws, .ok n⟩, u) ↔ P ∧ ws = others ∧ Q) :
    (do return (← rest).after notes).run t = (⟨ws, .ok n⟩, u) ↔ P ∧ ws = notes ++ others ∧ Q := by
  change ((rest.run t).1.after notes, (rest.run t).2) = _ ↔ _
  constructor
  · generalize rest.run t = r at h ⊢
    obtain ⟨⟨told, result⟩, t'⟩ := r
    rintro ⟨⟩
    obtain ⟨hp, rfl, hq⟩ := h.1 rfl
    exact ⟨hp, rfl, hq⟩
  · rintro ⟨hp, rfl, hq⟩
    rw [h.2 ⟨hp, rfl, hq⟩]
    rfl

/-- A run goes on after the files of a profile were written. -/
theorem run_saveProfile_eq_iff {notes ws : List Warning} {n : Counts}
    {rest : Bool → StateM FileTree Outcome} :
    (do match ← saveProfile FileTree.storage config p with
      | .error fault => return ⟨notes, .error fault⟩
      | .ok hasDomainFile => rest hasDomainFile : StateM FileTree Outcome).run t =
        (⟨ws, .ok n⟩, u) ↔
      (∀ f ∈ savedFiles config p, t.Accepts f.1) ∧
        (rest (Result.domain.text? config p).isSome).run (t.writeAll (savedFiles config p)) =
          (⟨ws, .ok n⟩, u) := by
  rw [run_bind]
  rcases hsave : (saveProfile FileTree.storage config p).run t with ⟨result, t'⟩
  cases result with
  | error fault =>
    refine ⟨nofun, fun ⟨hfiles, _⟩ => ?_⟩
    exact nomatch hsave.symm.trans (saveProfile_eq_ok_iff.2 ⟨hfiles, rfl, rfl⟩)
  | ok b =>
    obtain ⟨hfiles, rfl, rfl⟩ := saveProfile_eq_ok_iff.1 hsave
    exact (and_iff_right hfiles).symm

/-- **Profiling columns** tells of each of them, counts it and writes its files, in order. -/
theorem profileColumns_eq_ok_iff {r : Registry} {counts n : Counts} {cs : List Column}
    {ws : List Warning} (hr : r.overrides = config.overrides) :
    (profileColumns FileTree.storage config r counts cs).run t = (⟨ws, .ok n⟩, u) ↔
      (∀ f ∈ allFiles config cs, t.Accepts f.1) ∧ ws = cs.flatMap (warnings config) ∧
      n = counts.after config cs ∧ u = t.writeAll (allFiles config cs) := by
  induction cs generalizing r counts t ws with
  | nil =>
    rw [profileColumns, run_return_eq_iff, Outcome.mk.injEq, Except.ok.injEq, and_assoc]
    exact (and_iff_right (List.forall_mem_nil _)).symm
  | cons c cs ih =>
    rw [profileColumns]
    obtain ⟨hattempt, hover⟩ := Profile.attemptIn_eq r c
    rw [hr] at hattempt hover
    generalize Profile.attemptIn r c = step at hattempt hover ⊢
    obtain ⟨registry, attempt⟩ := step
    obtain rfl : attempt = attemptOf config c := hattempt
    rw [List.flatMap_cons, allFiles]
    cases hresult : (attemptOf config c).result with
    | error fault =>
      rw [profiles_cons_of_error hresult, after_cons_of_error hresult, warnings_of_error hresult]
      simp only [hresult]
      exact run_after_eq_iff (ih hover)
    | ok p =>
      rw [profiles_cons_of_ok hresult, after_cons_of_ok hresult, warnings_of_ok hresult,
        List.flatMap_cons, List.forall_mem_append, FileTree.writeAll_append, and_assoc]
      simp only [hresult]
      refine run_saveProfile_eq_iff.trans (and_congr_right fun _ => ?_)
      simp only [run_after_eq_iff (ih hover), FileTree.accepts_writeAll]
      rfl

/-! ## Whole runs -/

/-- The tree once the directory for the results was made. -/
def prepared (config : Config) (t : FileTree) : FileTree :=
  (t.makeDirectory config.outputDirectory).1

/-- **A run that ends well**: on a tree that holds a snapshot it tells its warnings, counts the
columns and leaves another tree. -/
structure Finishes (config : Config) (t : FileTree) (s : Snapshot) (ws : List Warning) (n : Counts)
    (u : FileTree) : Prop where
  reads : (readSnapshot FileTree.storage config).run t = (.ok s, t)
  runs : (perform FileTree.storage config).run t = (⟨ws, .ok n⟩, u)

/-- The snapshot in the tree. -/
theorem run_readSnapshot_eq_iff {s : Snapshot} {v : FileTree} :
    (readSnapshot FileTree.storage config).run t = (.ok s, v) ↔
      (∃ text, t.readText config.catalogPath = some text ∧
        (SnapshotFormat.ofPath config.catalogPath).read? text = some s) ∧ v = t := by
  rw [readSnapshot, run_bind, run_readText]
  cases t.readText config.catalogPath with
  | none => exact ⟨nofun, nofun⟩
  | some text =>
    cases hread : (SnapshotFormat.ofPath config.catalogPath).read? text with
    | none =>
      simp only [hread]
      refine ⟨nofun, ?_⟩
      rintro ⟨⟨_, ⟨⟩, hsome⟩, _⟩
      exact absurd (hread.symm.trans hsome) nofun
    | some snapshot =>
      simp only [hread]
      rw [run_return_eq_iff, Except.ok.injEq]
      refine and_congr_left fun _ => ⟨?_, ?_⟩
      · rintro rfl
        exact ⟨text, rfl, hread⟩
      · rintro ⟨_, ⟨⟩, hsome⟩
        exact Option.some.inj (hsome.symm.trans hread)

/-- **What a run has done that ends well.** -/
theorem finishes_iff {s : Snapshot} {ws : List Warning} {n : Counts} :
    Finishes config t s ws n u ↔
      (readSnapshot FileTree.storage config).run t = (.ok s, t) ∧
      (t.makeDirectory config.outputDirectory).2 = true ∧
      (∀ f ∈ allFiles config s.columns, (prepared config t).Accepts f.1) ∧
      ws = s.columns.flatMap (warnings config) ∧
      n = Counts.after {} config s.columns ∧
      u = (prepared config t).writeAll (allFiles config s.columns) := by
  have hruns (hread : (readSnapshot FileTree.storage config).run t = (.ok s, t)) :
      (perform FileTree.storage config).run t = (⟨ws, .ok n⟩, u) ↔
        (t.makeDirectory config.outputDirectory).2 = true ∧
        (profileColumns FileTree.storage config (.empty config.overrides) {} s.columns).run
          (prepared config t) = (⟨ws, .ok n⟩, u) := by
    rw [perform, run_bind, hread]
    simp only
    rw [run_bind, run_makeDirectory, prepared]
    cases (t.makeDirectory config.outputDirectory).2 with
    | false => exact ⟨nofun, nofun⟩
    | true => exact (and_iff_right rfl).symm
  constructor
  · rintro ⟨hread, hrun⟩
    rw [hruns hread, profileColumns_eq_ok_iff rfl] at hrun
    exact ⟨hread, hrun⟩
  · rintro ⟨hread, hrun⟩
    refine ⟨hread, ?_⟩
    rwa [hruns hread, profileColumns_eq_ok_iff rfl]

end Run

end CatalogStats
