import CatalogStats.Proofs.Run.Files
import Mathlib.Data.List.Dedup
import Mathlib.Data.List.Nodup

/-!
# Proofs/Run/Outputs — whether every profile keeps its file

A run writes the distribution of each profile to a file named after its column.  Profiles of columns
whose names have the same text have one file together, and the last of them keeps it.  So a run leaves
as many distribution files as it profiled columns exactly when the texts of their names are different
(`distributions_kept_iff`).
-/

namespace CatalogStats.Run

variable {config : Config} {t u : FileTree} {s : Snapshot} {ws : List Warning} {n : Counts}
  {p q : Profile}

/-- Where the distribution of a profile is written. -/
def distributionPath (config : Config) (p : Profile) : String :=
  Result.distribution.path config p.column

/-- The locations of the distribution files of profiles, one for each profile. -/
def distributionLocations (config : Config) (u : FileTree) (ps : List Profile) :
    List (Option Location) := ps.map fun p => u.locateFile (distributionPath config p)

/-- The number of distribution files that a run leaves. -/
def distributionCount (config : Config) (u : FileTree) (ps : List Profile) : ℕ :=
  (distributionLocations config u ps).dedup.length

theorem length_dedup_eq_iff {α : Type} [DecidableEq α] {l : List α} :
    l.dedup.length = l.length ↔ l.Nodup := by
  rw [← List.dedup_eq_self]
  exact ⟨fun h => (List.dedup_sublist l).eq_of_length h, fun h => by rw [h]⟩

theorem exists_location (h : Finishes config t s ws n u) (hp : p ∈ profiles config s.columns) :
    ∃ l, u.locateFile (distributionPath config p) = some l := by
  obtain ⟨_, _, haccepts, _, _, rfl⟩ := finishes_iff.1 h
  have htext : Result.distribution.text? config p = some p.distribution := rfl
  obtain ⟨l, hl, _⟩ := haccepts _ (mem_allFiles hp htext)
  exact ⟨l, by rwa [FileTree.locateFile_writeAll]⟩

/-- Two profiles have one file exactly if the texts of their names are the same. -/
theorem location_eq_iff (h : Finishes config t s ws n u) (hs : ∀ c ∈ s.columns, Slashless c.name)
    (hp : p ∈ profiles config s.columns) (hq : q ∈ profiles config s.columns) :
    u.locateFile (distributionPath config p) = u.locateFile (distributionPath config q) ↔
      p.column.text = q.column.text := by
  have hps : ∀ p ∈ profiles config s.columns, Slashless p.column := slashless_of_mem_profiles hs
  constructor
  · intro heq
    obtain ⟨l, hl⟩ := exists_location h hp
    exact (eq_of_locateFile_path (hps p hp) (hps q hq) hl (heq ▸ hl)).1
  · intro htext
    rw [distributionPath, distributionPath, path_eq htext]

/-- **Files are different** exactly where names are. -/
theorem nodup_distributionLocations_iff (h : Finishes config t s ws n u)
    (hs : ∀ c ∈ s.columns, Slashless c.name) :
    (distributionLocations config u (profiles config s.columns)).Nodup ↔
      ((profiles config s.columns).map fun p => p.column.text).Nodup := by
  rw [distributionLocations, List.Nodup, List.Nodup, List.pairwise_map, List.pairwise_map]
  exact List.Pairwise.iff_of_mem fun hp hq => not_congr (location_eq_iff h hs hp hq)

/-- **Every profile keeps its file** exactly if the texts of the names of the profiled columns are
different.  Otherwise there are fewer files than profiles, and each file holds the distribution of the
last profile of its name. -/
theorem distributions_kept_iff (h : Finishes config t s ws n u)
    (hs : ∀ c ∈ s.columns, Slashless c.name) :
    n.profiled = (profiles config s.columns).length ∧
    (∀ p ∈ profiles config s.columns, ∃ q,
      ((profiles config s.columns).filter fun q => q.column.text = p.column.text).getLast? =
        some q ∧ u.readText (distributionPath config p) = some q.distribution) ∧
    (distributionCount config u (profiles config s.columns) = n.profiled ↔
      ((profiles config s.columns).map fun p => p.column.text).Nodup) ∧
    (((profiles config s.columns).map fun p => p.column.text).Nodup →
      (distributionLocations config u (profiles config s.columns)).Nodup ∧
      ∀ p ∈ profiles config s.columns,
        u.readText (distributionPath config p) = some p.distribution) := by
  have hcount : n.profiled = (profiles config s.columns).length := by
    obtain ⟨_, _, _, _, rfl, _⟩ := finishes_iff.1 h
    exact Nat.zero_add _
  have hnodup := nodup_distributionLocations_iff h hs
  refine ⟨hcount, fun p hp => readText_distribution h hs hp, ?_, fun hnames => ⟨hnodup.2 hnames, ?_⟩⟩
  · have hlength : (distributionLocations config u (profiles config s.columns)).length =
        (profiles config s.columns).length := List.length_map _
    rw [hcount, distributionCount, ← hlength, length_dedup_eq_iff, hnodup]
  · intro p hp
    obtain ⟨q, hlast, hq⟩ := readText_distribution h hs hp
    have hmem := List.mem_filter.1 (List.mem_of_getLast? hlast)
    have hqp : q = p := List.inj_on_of_nodup_map hnames hmem.1 hp (of_decide_eq_true hmem.2)
    exact hqp ▸ hq

/-- Two columns without statistics, of which the second has a row without a value. -/
def pairColumns (a b : QualifiedName) : List Column :=
  [(a, 0), (b, 1)].map fun x => bareColumn x.1 x.2

theorem profiles_pairColumns (h : config.overrides = []) (a b : QualifiedName) :
    profiles config (pairColumns a b) =
      [.bare .integer (bareColumn a 0), .bare .integer (bareColumn b 1)] := profiles_bareColumns h _

/-- A snapshot of two columns whose names have different texts. -/
def pairText : String :=
  "[[[\"s\",\"t\",\"c\",[\"INTEGER\"]],[\"s\",\"t\",\"d\",[\"INTEGER\"],null,0,1]]]"

/-- A snapshot of two columns with different names whose texts are the same. -/
def collidingText : String :=
  "[[[\"a.b\",\"c\",\"d\",[\"INTEGER\"]],[\"a\",\"b.c\",\"d\",[\"INTEGER\"],null,0,1]]]"

/-- A run that profiles two columns whose names have different texts leaves two files. -/
theorem distributions_kept_pair : ∃ s ws n u,
    Finishes distantConfig (distantTree pairText []) s ws n u ∧ n.profiled = 2 ∧
    distributionCount distantConfig u (profiles distantConfig s.columns) = 2 := by
  have hread : Snapshot.ofJsonText? pairText =
      some ⟨pairColumns ⟨"s", "t", "c"⟩ ⟨"s", "t", "d"⟩⟩ := by decide +kernel
  have hready := ready_distant [] hread (by decide)
  obtain ⟨hcount, _, hiff, _⟩ := distributions_kept_iff hready.finishes hready.slashless
  rw [profiles_pairColumns rfl] at hcount hiff
  refine ⟨_, _, _, _, hready.finishes, hcount, ?_⟩
  rw [profiles_pairColumns rfl]
  exact (hiff.2 (by decide)).trans hcount

/-- **A file is lost** where different names have the same text: a run profiles two columns and leaves
one distribution file, which does not hold the distribution of the first. -/
theorem distribution_lost : ∃ config t s ws n u,
    Finishes config t s ws n u ∧ (s.columns.map Column.name).Nodup ∧
    (∀ c ∈ s.columns, Slashless c.name) ∧ n.profiled = 2 ∧
    distributionCount config u (profiles config s.columns) = 1 ∧
    ∃ p ∈ profiles config s.columns,
      u.readText (distributionPath config p) ≠ some p.distribution := by
  have hread : Snapshot.ofJsonText? collidingText =
      some ⟨pairColumns ⟨"a.b", "c", "d"⟩ ⟨"a", "b.c", "d"⟩⟩ := by decide +kernel
  have hready := ready_sample hread (by decide)
  have h := hready.finishes
  have hs := hready.slashless
  have hmem : .bare .integer (bareColumn ⟨"a.b", "c", "d"⟩ 0) ∈
      profiles sampleConfig (pairColumns ⟨"a.b", "c", "d"⟩ ⟨"a", "b.c", "d"⟩) := by
    rw [profiles_pairColumns rfl]
    exact List.mem_cons_self
  have hmem' : .bare .integer (bareColumn ⟨"a", "b.c", "d"⟩ 1) ∈
      profiles sampleConfig (pairColumns ⟨"a.b", "c", "d"⟩ ⟨"a", "b.c", "d"⟩) := by
    rw [profiles_pairColumns rfl]
    exact List.mem_cons_of_mem _ List.mem_cons_self
  refine ⟨sampleConfig, _, _, _, _, _, h, ?_, hs, ?_, ?_, _, hmem, ?_⟩
  · decide
  · rw [Counts.after, profiles_pairColumns rfl]
    rfl
  · have hlocation := (location_eq_iff h hs hmem hmem').2 (by decide)
    rw [distributionCount, distributionLocations, profiles_pairColumns rfl, List.map_cons, hlocation,
      List.map_cons, List.map_nil, List.dedup_cons_of_mem List.mem_cons_self]
    rfl
  · obtain ⟨q, hlast, hq⟩ := readText_distribution h hs hmem
    rw [profiles_pairColumns rfl] at hlast
    obtain rfl := Option.some.inj hlast
    rw [distributionPath, hq]
    decide

end CatalogStats.Run
