import CatalogStats.Proofs.Run.Steps
import CatalogStats.Proofs.Storage.Paths

/-!
# Proofs/Run/Files — where the files of columns stand

The name of a result file is the text of a column name and an ending, so files of columns whose names
have different texts stand at different locations (`eq_of_locateFile_path`).  A run leaves at such a
location the text of the last profile of that name (`get?_result`).  A run that has a snapshot, a
directory and possible names ends well, wherever its paths lead (`Ready.finishes`).
-/

namespace CatalogStats.Run

variable {config : Config} {t : FileTree} {l : Location} {r r' : Result} {n n' : QualifiedName}
  {p : Profile} {ps : List Profile} {cs : List Column}

/-! ## Names -/

/-- A name whose text can be that of a file. -/
def Slashless (n : QualifiedName) : Prop := '/' ∉ n.text.toList

instance (n : QualifiedName) : Decidable (Slashless n) :=
  inferInstanceAs (Decidable ('/' ∉ n.text.toList))

theorem ending_ne_nil (r : Result) : r.ending.toList ≠ [] := by
  cases r <;> decide

theorem getLast?_name (n : QualifiedName) (r : Result) :
    (n.text ++ r.ending).toList.getLast? = r.ending.toList.getLast? := by
  rw [String.toList_append, List.getLast?_append_of_ne_nil _ (ending_ne_nil r)]

/-- **The name of a result file** is a step down. -/
theorem isStep_name (hn : Slashless n) (r : Result) : Path.IsStep (n.text ++ r.ending) := by
  have hlast : ∀ text ∈ ["", ".", Path.up],
      text.toList.getLast? ≠ r.ending.toList.getLast? := by
    cases r <;> decide
  have hne : ∀ text ∈ ["", ".", Path.up], n.text ++ r.ending ≠ text := by
    rintro text htext rfl
    exact hlast _ htext (getLast?_name n r)
  refine ⟨fun hmem => ?_, hne _ (by decide), hne _ (by decide), hne _ (by decide)⟩
  rw [String.toList_append, List.mem_append] at hmem
  rcases hmem with hmem | hmem
  · exact hn hmem
  · cases r <;> exact absurd hmem (by decide)

/-- …and tells the column and the kind of file. -/
theorem name_inj (h : n.text ++ r.ending = n'.text ++ r'.ending) : n.text = n'.text ∧ r = r' := by
  have hlast := congrArg (fun text => text.toList.getLast?) h
  simp only [getLast?_name] at hlast
  obtain rfl : r = r' := by
    cases r <;> cases r' <;> first | rfl | exact absurd hlast (by decide)
  have hlist := congrArg String.toList h
  rw [String.toList_append, String.toList_append, List.append_cancel_right_eq] at hlist
  exact ⟨String.toList_inj.1 hlist, rfl⟩

theorem path_eq (h : n.text = n'.text) (r : Result) : r.path config n = r.path config n' := by
  rw [Result.path, Result.path, resultPath, resultPath, h]

/-- **Files with different names stand at different locations.** -/
theorem eq_of_locateFile_path (hn : Slashless n) (hn' : Slashless n')
    (h : t.locateFile (r.path config n) = some l) (h' : t.locateFile (r'.path config n') = some l) :
    n.text = n'.text ∧ r = r' :=
  name_inj (FileTree.eq_of_locateFile_join (isStep_name hn r) (isStep_name hn' r') h h')

/-! ## Texts -/

/-- Of the files of a profile none or one is written to the location of a result. -/
theorem writtenTo_savedFiles (hp : Slashless p.column) (hn : Slashless n)
    (hl : t.locateFile (r.path config n) = some l) : t.writtenTo l (savedFiles config p) =
      if p.column.text = n.text then (fileOf config r p).toList else [] := by
  have hiff : ∀ r', t.locateFile (r'.path config p.column) = some l ↔
      p.column.text = n.text ∧ r' = r := by
    intro r'
    refine ⟨fun h => eq_of_locateFile_path hp hn h hl, ?_⟩
    rintro ⟨htext, rfl⟩
    rwa [path_eq htext]
  have hfilter : ∀ r', ((fileOf config r' p).filter fun f => t.locateFile f.1 = some l) =
      if p.column.text = n.text ∧ r' = r then fileOf config r' p else none := by
    intro r'
    rw [fileOf]
    cases r'.text? config p with
    | none => simp
    | some text => simp [Option.filter, hiff]
  rw [FileTree.writtenTo, savedFiles, List.filter_filterMap]
  simp only [hfilter]
  split
  case isTrue htext =>
    simp only [htext, true_and, List.filterMap_cons, List.filterMap_nil]
    cases r with
    | distribution => cases fileOf config .distribution p <;> simp
    | domain => cases fileOf config .domain p <;> simp
  case isFalse htext =>
    simp only [htext, false_and, if_false]
    rfl

/-- **The files written to the location of a result** are those of the profiles of that name. -/
theorem writtenTo_files (hps : ∀ p ∈ ps, Slashless p.column) (hn : Slashless n)
    (hl : t.locateFile (r.path config n) = some l) :
    t.writtenTo l (ps.flatMap (savedFiles config)) =
      (ps.filter fun p => p.column.text = n.text).filterMap (fileOf config r) := by
  induction ps with
  | nil => rfl
  | cons p ps ih =>
    obtain ⟨hp, hps⟩ := List.forall_mem_cons.1 hps
    have hhead := writtenTo_savedFiles hp hn hl
    have htail := ih hps
    rw [FileTree.writtenTo] at hhead htail
    rw [List.flatMap_cons, FileTree.writtenTo, List.filter_append, hhead, htail]
    by_cases htext : p.column.text = n.text
    · rw [if_pos htext, List.filter_cons_of_pos (by simpa using htext), List.filterMap_cons]
      cases fileOf config r p <;> rfl
    · rw [if_neg htext, List.filter_cons_of_neg (by simpa using htext), List.nil_append]

/-- **The location of a result holds the text of the last profile of that name** that has such a
file, or else what it held before. -/
theorem get?_result (hps : ∀ p ∈ ps, Slashless p.column) (hn : Slashless n)
    (hl : t.locateFile (r.path config n) = some l) (hdir : t.isDirectory l = false) :
    (t.writeAll (ps.flatMap (savedFiles config))).get? l =
      (((ps.filter fun p => p.column.text = n.text).filterMap (r.text? config)).getLast?.map
        .file).or (t.get? l) := by
  have htexts : ∀ ps : List Profile, (ps.filterMap (fileOf config r)).map Prod.snd =
      ps.filterMap (r.text? config) := by
    intro ps
    rw [List.map_filterMap]
    refine List.filterMap_congr fun p _ => ?_
    rw [fileOf, Option.map_map]
    cases r.text? config p <;> rfl
  rw [FileTree.get?_writeAll hdir, writtenTo_files hps hn hl, ← htexts, List.getLast?_map,
    Option.map_map]
  rfl

/-- Where no profile of that name has such a file, no file changes. -/
theorem file?_result (hps : ∀ p ∈ ps, Slashless p.column) (hn : Slashless n)
    (hl : t.locateFile (r.path config n) = some l)
    (hnone : (ps.filter fun p => p.column.text = n.text).filterMap (r.text? config) = []) :
    (t.writeAll (ps.flatMap (savedFiles config))).file? l = t.file? l := by
  cases hdir : t.isDirectory l with
  | false =>
    rw [FileTree.file?_eq_get? hdir, FileTree.file?_eq_get? (by rwa [FileTree.isDirectory_writeAll]),
      get?_result hps hn hl hdir, hnone]
    rfl
  | true =>
    have hafter : (t.writeAll (ps.flatMap (savedFiles config))).isDirectory l = true := by
      rwa [FileTree.isDirectory_writeAll]
    rw [FileTree.file?, FileTree.file?, beq_iff_eq.1 hdir, beq_iff_eq.1 hafter]

/-! ## Columns -/

theorem column_of_profile? {c : Column} (h : profile? config c = some p) : p.column = c.name := by
  rw [profile?] at h
  cases hresult : (attemptOf config c).result with
  | error fault =>
    rw [hresult] at h
    cases h
  | ok q =>
    rw [hresult] at h
    obtain rfl := Option.some.inj h
    exact Profile.column_of_attemptAs hresult

theorem mem_profiles_iff : p ∈ profiles config cs ↔ ∃ c ∈ cs, profile? config c = some p :=
  List.mem_filterMap

/-- The profiles of a name are those of the columns of that name. -/
theorem filter_profiles (cs : List Column) (n : QualifiedName) :
    ((profiles config cs).filter fun p => p.column.text = n.text) =
      profiles config (cs.filter fun c => c.name.text = n.text) := by
  rw [profiles, profiles, List.filter_filterMap, List.filterMap_filter]
  refine List.filterMap_congr fun c _ => ?_
  cases hp : profile? config c with
  | none => simp
  | some p => simp [Option.filter, column_of_profile? hp]

theorem slashless_of_mem_profiles (h : ∀ c ∈ cs, Slashless c.name) :
    ∀ p ∈ profiles config cs, Slashless p.column := by
  intro p hp
  obtain ⟨c, hc, hprofile⟩ := mem_profiles_iff.1 hp
  exact column_of_profile? hprofile ▸ h c hc

/-- Every file belongs to a column. -/
theorem exists_of_mem_allFiles {f : String × String} (h : f ∈ allFiles config cs) :
    ∃ c ∈ cs, ∃ r : Result, f.1 = r.path config c.name := by
  obtain ⟨p, hp, hf⟩ := List.mem_flatMap.1 h
  obtain ⟨c, hc, hprofile⟩ := mem_profiles_iff.1 hp
  obtain ⟨r, _, hr⟩ := List.mem_filterMap.1 hf
  obtain ⟨text, _, rfl⟩ := Option.map_eq_some_iff.1 hr
  exact ⟨c, hc, r, by rw [column_of_profile? hprofile]⟩

/-- A text of a profile is among the files. -/
theorem mem_allFiles {text : String} (hp : p ∈ profiles config cs)
    (htext : r.text? config p = some text) : (r.path config p.column, text) ∈ allFiles config cs := by
  refine List.mem_flatMap.2 ⟨p, hp, List.mem_filterMap.2 ⟨r, ?_, ?_⟩⟩
  · cases r <;> decide
  · rw [fileOf, htext, Option.map_some]

/-! ## Runs -/

/-- Whether the files of a column of some name have possible names. -/
def Nameable (n : QualifiedName) : Prop :=
  Slashless n ∧ ∀ r ∈ [Result.distribution, Result.domain], Path.isName (n.text ++ r.ending) = true

instance (n : QualifiedName) : Decidable (Nameable n) := inferInstanceAs (Decidable (_ ∧ _))

theorem Nameable.isName (h : Nameable n) (r : Result) : Path.isName (n.text ++ r.ending) = true :=
  h.2 r (by cases r <;> decide)

/-- **What a run needs to end well**: a snapshot, a directory for the results, and for every file a
possible name that no directory has there. -/
structure Ready (config : Config) (t : FileTree) (s : Snapshot) : Prop where
  reads : (readSnapshot FileTree.storage config).run t = (.ok s, t)
  made : (t.makeDirectory config.outputDirectory).2 = true
  names : ∀ c ∈ s.columns, Nameable c.name
  free : ∀ k, (prepared config t).follow (Path.ofText config.outputDirectory) = some k →
    ∀ c ∈ s.columns, ∀ r : Result,
      (prepared config t).isDirectory (k ++ [c.name.text ++ r.ending]) = false

theorem Ready.slashless {s : Snapshot} (h : Ready config t s) : ∀ c ∈ s.columns, Slashless c.name :=
  fun c hc => (h.names c hc).1

/-- **A run ends well if it has what it needs**, whether its paths start at the root or at the working
directory and wherever they lead from there. -/
theorem Ready.finishes {s : Snapshot} (h : Ready config t s) :
    Finishes config t s (s.columns.flatMap (warnings config)) (Counts.after {} config s.columns)
      ((prepared config t).writeAll (allFiles config s.columns)) := by
  refine finishes_iff.2 ⟨h.reads, h.made, fun f hf => ?_, rfl, rfl, rfl⟩
  obtain ⟨c, hc, r, hpath⟩ := exists_of_mem_allFiles hf
  obtain ⟨k, hk, hdir⟩ := FileTree.exists_follow_of_makeDirectory h.made
  have hplace := FileTree.locateFile_join_of_follow (isStep_name (h.slashless c hc) r)
    ((h.names c hc).isName r) hk hdir
  exact ⟨_, hpath ▸ hplace, h.free k hk c hc r⟩

/-- **The distribution file of a name** holds the distribution of the last profile of that name. -/
theorem readText_distribution {s : Snapshot} {ws : List Warning} {k : Counts} {u : FileTree}
    (h : Finishes config t s ws k u) (hs : ∀ c ∈ s.columns, Slashless c.name)
    (hp : p ∈ profiles config s.columns) :
    ∃ q, ((profiles config s.columns).filter fun q => q.column.text = p.column.text).getLast? =
        some q ∧ u.readText (Result.distribution.path config p.column) = some q.distribution := by
  obtain ⟨_, _, haccepts, _, _, rfl⟩ := finishes_iff.1 h
  have hps : ∀ p ∈ profiles config s.columns, Slashless p.column := slashless_of_mem_profiles hs
  have htext : Result.distribution.text? config p = some p.distribution := rfl
  obtain ⟨l, hl, hdir⟩ := haccepts _ (mem_allFiles hp htext)
  have hne : ((profiles config s.columns).filter fun q => q.column.text = p.column.text) ≠ [] :=
    List.ne_nil_of_mem (List.mem_filter.2 ⟨hp, decide_eq_true rfl⟩)
  refine ⟨_, List.getLast?_eq_some_getLast hne, FileTree.readText_eq_some_iff.2 ⟨l, ?_, ?_⟩⟩
  · rwa [FileTree.locateFile_writeAll]
  · have hall : ∀ ps : List Profile,
        ps.filterMap (Result.distribution.text? config) = ps.map Profile.distribution :=
      fun ps => congrFun (List.filterMap_eq_map (f := Profile.distribution)) ps
    rw [allFiles, get?_result hps (hps p hp) hl hdir, hall, List.getLast?_map,
      List.getLast?_eq_some_getLast hne]
    rfl

/-! ## Columns without statistics -/

/-- A column of integers without statistics. -/
def bareColumn (name : QualifiedName) (nulls : UInt64) : Column where
  name := name
  type := ⟨"INTEGER", 0, 0⟩
  reportedMin := none
  cardinality := 0
  nulls := nulls
  quantiles := []
  frequentValues := []

theorem profile?_bareColumn (h : config.overrides = []) (name : QualifiedName) (nulls : UInt64) :
    profile? config (bareColumn name nulls) = some (.bare .integer (bareColumn name nulls)) := by
  have hkind : ColumnType.kind? ⟨"INTEGER", 0, 0⟩ = some .integer := by decide
  have hattempt : attemptOf config (bareColumn name nulls) =
      Profile.attempt .integer (bareColumn name nulls) := by
    rw [attemptOf, h]
    exact Profile.attemptAs_nil hkind
  rw [profile?, hattempt, Profile.attempt_of_no_statistics rfl rfl]
  rfl

theorem profiles_bareColumns (h : config.overrides = []) (xs : List (QualifiedName × UInt64)) :
    profiles config (xs.map fun x => bareColumn x.1 x.2) =
      xs.map fun x => .bare .integer (bareColumn x.1 x.2) := by
  induction xs with
  | nil => rfl
  | cons x xs ih =>
    rw [List.map_cons, profiles, List.filterMap_cons_some (profile?_bareColumn h x.1 x.2)]
    exact congrArg _ ih

/-! ## Places to run in -/

/-- A run that reads a file of the working directory and writes into a directory there. -/
def sampleConfig : Config := ⟨"c.json", "out", true, []⟩

/-- The tree before that run. -/
def sampleTree (text : String) : FileTree := ⟨[(["c.json"], .file text)], []⟩

/-- That run has what it needs. -/
theorem ready_sample {text : String} {s : Snapshot} (hread : Snapshot.ofJsonText? text = some s)
    (hnames : ∀ n ∈ s.columns.map Column.name, Nameable n) :
    Ready sampleConfig (sampleTree text) s where
  reads := run_readSnapshot_eq_iff.2 ⟨⟨text, rfl, hread⟩, rfl⟩
  made := rfl
  names c hc := hnames c.name (List.mem_map_of_mem hc)
  free := by
    rintro k ⟨⟩ c _ r
    rfl

/-- A run with paths that lead out of the working directory. -/
def distantConfig : Config := ⟨"/data/c.json", "../out", true, []⟩

/-- The tree before that run, with files of earlier runs in the directory for the results. -/
def distantTree (text : String) (earlier : List (String × String)) : FileTree where
  entries := [(["data"], .directory), (["data", "c.json"], .file text), (["out"], .directory)] ++
    earlier.map fun (name, text) => (["out", name], .file text)
  workingDirectory := ["home"]

/-- The files of earlier runs are files. -/
theorem isDirectory_distantTree (text name : String) (earlier : List (String × String)) :
    (distantTree text earlier).isDirectory ["out", name] = false := by
  have hfiles : (earlier.map fun f => (["out", f.1], Entry.file f.2)).lookup ["out", name] ≠
      some .directory := by
    induction earlier with
    | nil => exact nofun
    | cons f fs ih =>
      rw [List.map_cons, List.lookup_cons]
      split
      · exact nofun
      · exact ih
  exact beq_eq_false_iff_ne.2 hfiles

/-- That run has what it needs. -/
theorem ready_distant {text : String} {s : Snapshot} (earlier : List (String × String))
    (hread : Snapshot.ofJsonText? text = some s)
    (hnames : ∀ n ∈ s.columns.map Column.name, Nameable n) :
    Ready distantConfig (distantTree text earlier) s where
  reads := run_readSnapshot_eq_iff.2 ⟨⟨text, rfl, hread⟩, rfl⟩
  made := rfl
  names c hc := hnames c.name (List.mem_map_of_mem hc)
  free := by
    rintro k ⟨⟩ c _ r
    exact isDirectory_distantTree text _ earlier

end CatalogStats.Run
