import CatalogStats.Proofs.Run.Independence

/-!
# Proofs/Run/Leftovers — what earlier runs leave of a column's files

A run writes the files of its profiles and removes none.  So the distribution file of a profile is
that of this run, whatever stood in its place.  A domain file is that of this run only if the run has
one to write; any other file that stood in its place stays (`leaves_of_finishes`).
-/

namespace CatalogStats

/-- The file that a path leads to. -/
def FileTree.fileAt (t : FileTree) (path : String) : Option Entry :=
  (t.locateFile path).bind t.file?

theorem FileTree.fileAt_of_readText {t : FileTree} {path text : String}
    (h : t.readText path = some text) : t.fileAt path = some (.file text) := by
  obtain ⟨l, hl, hfile⟩ := readText_eq_some_iff.1 h
  rw [fileAt, hl, Option.bind_some, file?, hfile]
  rfl

namespace Run

variable {config : Config} {t u : FileTree} {s : Snapshot} {ws : List Warning} {n : Counts}
  {c : Column} {p : Profile}

/-! ## What a run leaves -/

/-- The file that stands in the place of a domain file when a run begins. -/
def leftover (config : Config) (t : FileTree) (column : QualifiedName) : Option Entry :=
  ((prepared config t).locateFile (Result.domain.path config column)).bind t.file?

/-- **What a run leaves of the files of a profile**: the distribution, and the known values or else
what stood in their place. -/
structure Leaves (config : Config) (p : Profile) (t u : FileTree) : Prop where
  distribution : u.fileAt (Result.distribution.path config p.column) = some (.file p.distribution)
  domain : u.fileAt (Result.domain.path config p.column) =
    ((Result.domain.text? config p).map .file).or (leftover config t p.column)

/-- Where no two names have the same text, every column is alone. -/
theorem alone_of_nodup (h : (s.columns.map fun c => c.name.text).Nodup) (hc : c ∈ s.columns) :
    Alone s c := filter_eq_singleton h hc

/-- The texts of the files of a profile. -/
theorem text?_fate_of_profile? (h : profile? config c = some p) (r : Result) :
    (fate config c).text? r = r.text? config p := by
  rw [← bind_profile?_text?, h, Option.bind_some]

/-- **What a run that ends well leaves of the files of every profile.** -/
theorem leaves_of_finishes (h : Finishes config t s ws n u)
    (hs : ∀ c ∈ s.columns, Slashless c.name) (hnames : (s.columns.map fun c => c.name.text).Nodup)
    (hp : p ∈ profiles config s.columns) : Leaves config p t u := by
  obtain ⟨c, hc, hprofile⟩ := mem_profiles_iff.1 hp
  have hshows := shows_of_finishes h hs (alone_of_nodup hnames hc)
  rw [← column_of_profile? hprofile] at hshows
  have hsaved (r : Result) (text : String) (htext : r.text? config p = some text) :
      u.fileAt (r.path config p.column) = some (.file text) :=
    FileTree.fileAt_of_readText (hshows.saved r text ((text?_fate_of_profile? hprofile r).trans htext))
  refine ⟨hsaved .distribution _ rfl, ?_⟩
  cases htext : Result.domain.text? config p with
  | some text => exact hsaved .domain text htext
  | none =>
    have hkept := hshows.kept .domain ((text?_fate_of_profile? hprofile .domain).trans htext)
    obtain ⟨_, _, _, _, _, rfl⟩ := finishes_iff.1 h
    rw [FileTree.locateFile_writeAll] at hkept
    rw [FileTree.fileAt, FileTree.locateFile_writeAll]
    exact Option.bind_congr hkept

/-! ## Two runs -/

/-- Two runs leave the same domain file if they write one or found the same. -/
theorem Leaves.fileAt_domain_eq_iff {t₁ t₂ u₁ u₂ : FileTree} (h₁ : Leaves config p t₁ u₁)
    (h₂ : Leaves config p t₂ u₂) :
    u₁.fileAt (Result.domain.path config p.column) =
        u₂.fileAt (Result.domain.path config p.column) ↔
      (Result.domain.text? config p).isSome ∨
        leftover config t₁ p.column = leftover config t₂ p.column := by
  rw [h₁.domain, h₂.domain]
  cases Result.domain.text? config p with
  | none => simp
  | some text => simp

/-- **Runs over one snapshot leave the same distribution files**, wherever they start, and the domain
files they write.  Where a column has no domain file to write, they leave what stood in its place, so
two runs leave the same there exactly if they found the same. -/
theorem leaves_twice {t₁ t₂ u₁ u₂ : FileTree} {ws₁ ws₂ : List Warning} {n₁ n₂ : Counts}
    (h₁ : Finishes config t₁ s ws₁ n₁ u₁) (h₂ : Finishes config t₂ s ws₂ n₂ u₂)
    (hs : ∀ c ∈ s.columns, Slashless c.name) (hnames : (s.columns.map fun c => c.name.text).Nodup) :
    ∀ p ∈ profiles config s.columns,
      (Leaves config p t₁ u₁ ∧ Leaves config p t₂ u₂) ∧
      (u₁.fileAt (Result.domain.path config p.column) =
          u₂.fileAt (Result.domain.path config p.column) ↔
        (Result.domain.text? config p).isSome ∨
          leftover config t₁ p.column = leftover config t₂ p.column) := by
  intro p hp
  have hleaves₁ : Leaves config p t₁ u₁ := leaves_of_finishes h₁ hs hnames hp
  have hleaves₂ : Leaves config p t₂ u₂ := leaves_of_finishes h₂ hs hnames hp
  exact ⟨⟨hleaves₁, hleaves₂⟩, hleaves₁.fileAt_domain_eq_iff hleaves₂⟩

/-! ## A column without a domain file -/

/-- The name of a column without statistics. -/
def staleName : QualifiedName := ⟨"s", "t", "c"⟩

/-- A snapshot of that column… -/
def staleSnapshot : Snapshot := ⟨[bareColumn staleName 0]⟩

/-- …and its text. -/
def staleText : String := "[[[\"s\",\"t\",\"c\",[\"INTEGER\"]]]]"

/-- A tree with that snapshot and something or nothing in the place of the domain file. -/
def staleTree (e? : Option Entry) : FileTree :=
  ⟨(e?.map fun e => (["out", "s.t.c.domain"], e)).toList ++
    [(["out"], .directory), (["c.json"], .file staleText)], []⟩

theorem read?_staleText : Snapshot.ofJsonText? staleText = some staleSnapshot := by decide +kernel

theorem profiles_staleSnapshot (h : config.overrides = []) :
    profiles config staleSnapshot.columns = [.bare .integer (bareColumn staleName 0)] :=
  profiles_bareColumns h [(staleName, 0)]

theorem mem_profiles_staleSnapshot (h : config.overrides = []) :
    .bare .integer (bareColumn staleName 0) ∈ profiles config staleSnapshot.columns :=
  profiles_staleSnapshot h ▸ List.mem_cons_self

theorem nameable_staleName : Nameable staleName := by decide

theorem nodup_staleSnapshot : (staleSnapshot.columns.map fun c => c.name.text).Nodup :=
  List.nodup_singleton _

/-- The column has no domain file to write. -/
theorem text?_stale (config : Config) :
    Result.domain.text? config (.bare .integer (bareColumn staleName 0)) = none :=
  ite_self none

/-- A run over such a tree leaves what it found. -/
theorem finishes_stale (e? : Option Entry) : ∃ ws n u,
    Finishes sampleConfig (staleTree e?) staleSnapshot ws n u ∧
      (u.locateFile (Result.domain.path sampleConfig staleName)).bind u.get? = e? := by
  have hfollow : (prepared sampleConfig (staleTree e?)).follow (Path.ofText "out") =
      some ["out"] := by
    cases e? <;> rfl
  have hout : (prepared sampleConfig (staleTree e?)).isDirectory ["out"] = true := by
    cases e? <;> rfl
  have hfiles : allFiles sampleConfig staleSnapshot.columns =
      [(Result.distribution.path sampleConfig staleName,
        (Profile.bare .integer (bareColumn staleName 0)).distribution)] := by
    rw [allFiles, profiles_staleSnapshot rfl, List.flatMap_singleton,
      savedFiles_of_none (text?_stale _)]
    rfl
  have hplace : ∀ r, (prepared sampleConfig (staleTree e?)).locateFile
      (Result.path sampleConfig r staleName) = some ["out", staleName.text ++ r.ending] :=
    fun r => FileTree.locateFile_join_of_follow (isStep_name nameable_staleName.1 r)
      (nameable_staleName.isName r) hfollow hout
  refine ⟨_, _, _, finishes_iff.2 ⟨run_readSnapshot_eq_iff.2 ⟨⟨staleText, ?_, read?_staleText⟩, rfl⟩,
    ?_, ?_, rfl, rfl, rfl⟩, ?_⟩
  · cases e? <;> rfl
  · cases e? <;> rfl
  · rw [hfiles]
    refine List.forall_mem_singleton.2 ⟨_, hplace .distribution, ?_⟩
    cases e? <;> rfl
  · rw [FileTree.locateFile_writeAll, hplace, hfiles, Option.bind_some]
    refine (FileTree.get?_writeText_of_ne ?_).trans ?_
    · rw [hplace]
      decide
    · cases e? <;> rfl

/-- A run over that snapshot with files of earlier runs around. -/
theorem ready_stale (earlier : List (String × String)) :
    Ready distantConfig (distantTree staleText earlier) staleSnapshot :=
  ready_distant earlier read?_staleText (List.forall_mem_singleton.2 nameable_staleName)

/-- A column without a domain file, over nothing and over a file of an earlier run: the distribution
file is the same, the domain file is missing or that of the earlier run. -/
theorem leaves_twice_stale : ∃ ws₁ n₁ u₁ ws₂ n₂ u₂,
    Finishes distantConfig (distantTree staleText []) staleSnapshot ws₁ n₁ u₁ ∧
    Finishes distantConfig (distantTree staleText [("s.t.c.domain", "old")]) staleSnapshot ws₂ n₂ u₂ ∧
    u₁.fileAt "../out/s.t.c.dist" = u₂.fileAt "../out/s.t.c.dist" ∧
    u₁.fileAt "../out/s.t.c.domain" ≠ u₂.fileAt "../out/s.t.c.domain" := by
  have hready₁ := ready_stale []
  have hready₂ := ready_stale [("s.t.c.domain", "old")]
  obtain ⟨⟨hleaves₁, hleaves₂⟩, hiff⟩ := leaves_twice hready₁.finishes hready₂.finishes
    hready₁.slashless nodup_staleSnapshot _ (mem_profiles_staleSnapshot rfl)
  refine ⟨_, _, _, _, _, _, hready₁.finishes, hready₂.finishes, ?_, fun heq => ?_⟩
  · exact hleaves₁.distribution.trans hleaves₂.distribution.symm
  · rcases hiff.1 heq with hsome | hsame
    · rw [text?_stale] at hsome
      cases hsome
    · exact absurd hsame (by decide +kernel)

/-- **A run does not make the domain files its own**: where a column has none to write, there is
afterwards whatever was there before. -/
theorem domain_file_stays : ∃ config s p, (∀ c ∈ s.columns, Slashless c.name) ∧
    (s.columns.map fun c => c.name.text).Nodup ∧ p ∈ profiles config s.columns ∧
    Result.domain.text? config p = none ∧ ∀ e?, ∃ t ws n u, Finishes config t s ws n u ∧
      (u.locateFile (Result.domain.path config p.column)).bind u.get? = e? := by
  refine ⟨sampleConfig, staleSnapshot, _, List.forall_mem_singleton.2 nameable_staleName.1,
    nodup_staleSnapshot, mem_profiles_staleSnapshot rfl, text?_stale _, fun e? => ?_⟩
  obtain ⟨ws, n, u, h, hfound⟩ := finishes_stale e?
  exact ⟨staleTree e?, ws, n, u, h, hfound⟩

end Run

end CatalogStats
