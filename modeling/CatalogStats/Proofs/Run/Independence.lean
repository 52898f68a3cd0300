import CatalogStats.Proofs.Run.Files

/-!
# Proofs/Run/Independence — what a run shows of a column depends on that column alone

A run skips a column with a warning or writes its files (`Fate`), and which of both happens and with
which texts is a function of the configuration and the column.  If no other column has a name of the
same text, that is what a run that ends well shows of the column, whatever the other columns are
(`shows_of_finishes`), and their order matters for nothing but the warnings
(`exists_finishes_of_perm`).
-/

namespace CatalogStats.Run

variable {config : Config} {t u : FileTree} {s s' : Snapshot} {ws : List Warning} {n : Counts}
  {c : Column} {l : Location} {r : Result}

/-! ## Fates -/

/-- What becomes of a column. -/
inductive Fate where
  | skipped (fault : Column.Fault)
  | written (distribution : String) (domain? : Option String)

/-- Why the column is skipped. -/
def Fate.fault? : Fate → Option Column.Fault
  | skipped fault => some fault
  | written .. => none

/-- The texts of its files. -/
def Fate.text? : Fate → Result → Option String
  | skipped _, _ => none
  | written distribution _, .distribution => some distribution
  | written _ domain?, .domain => domain?

/-- **What becomes of a column** under a configuration. -/
def fate (config : Config) (c : Column) : Fate :=
  match (attemptOf config c).result with
  | .error fault => .skipped fault
  | .ok p => .written p.distribution (Result.domain.text? config p)

theorem skip?_eq (config : Config) (c : Column) :
    skip? config c = (fate config c).fault?.map fun fault => (c.name, fault) := by
  rw [skip?, fate]
  cases (attemptOf config c).result <;> rfl

theorem bind_profile?_text? (config : Config) (c : Column) (r : Result) :
    (profile? config c).bind (r.text? config) = (fate config c).text? r := by
  rw [profile?, fate]
  cases (attemptOf config c).result with
  | error fault => rfl
  | ok p => cases r <;> rfl

/-! ## Warnings -/

/-- The skipped column of a warning. -/
def Warning.skip? : Warning → Option (QualifiedName × Column.Fault)
  | .countReplaced _ => none
  | .skipped column fault => some (column, fault)

/-- The columns that warnings tell to be skipped, with the reasons. -/
def skips (ws : List Warning) : List (QualifiedName × Column.Fault) := ws.filterMap Warning.skip?

theorem skips_warnings (config : Config) (c : Column) :
    skips (warnings config c) = (skip? config c).toList := by
  rw [skips, warnings, List.filterMap_append, List.filterMap_map, List.filterMap_map]
  have hnotes : ∀ notes : List Profile.Note,
      notes.filterMap (Warning.skip? ∘ Warning.countReplaced) = [] := by
    intro notes
    exact List.filterMap_eq_nil_iff.2 fun _ _ => rfl
  rw [hnotes, List.nil_append]
  cases skip? config c <;> rfl

/-- **The skipped columns are told in order.** -/
theorem skips_flatMap_warnings (config : Config) (cs : List Column) :
    skips (cs.flatMap (warnings config)) = cs.filterMap (Run.skip? config) := by
  induction cs with
  | nil => rfl
  | cons c cs ih =>
    rw [skips] at ih
    have hhead := skips_warnings config c
    rw [skips] at hhead
    rw [List.flatMap_cons, skips, List.filterMap_append, ih, hhead, List.filterMap_cons]
    cases Run.skip? config c <;> rfl

/-- Every column is counted once. -/
theorem length_profiles_add_length_skips (config : Config) (cs : List Column) :
    (profiles config cs).length + (cs.filterMap (skip? config)).length = cs.length := by
  induction cs with
  | nil => rfl
  | cons c cs ih =>
    cases h : (attemptOf config c).result with
    | error fault =>
      rw [profiles_cons_of_error h, List.filterMap_cons_some (skip?_of_error h), List.length_cons,
        List.length_cons, ← ih, Nat.add_assoc]
    | ok p =>
      rw [profiles_cons_of_ok h, List.filterMap_cons_none (skip?_of_ok h), List.length_cons,
        List.length_cons, ← ih, Nat.add_right_comm]

/-! ## What a run shows -/

/-- **What a run shows of a column** of some fate: whether it tells that the column is skipped, the
texts of its files, and that a file which it does not write stays as it was. -/
structure Shows (config : Config) (fate : Fate) (column : QualifiedName) (t : FileTree)
    (ws : List Warning) (u : FileTree) : Prop where
  told : ((skips ws).filter fun skip => skip.1.text = column.text) =
    (fate.fault?.map fun fault => (column, fault)).toList
  saved : ∀ r text, fate.text? r = some text → u.readText (r.path config column) = some text
  kept : ∀ r, fate.text? r = none → ∀ l, u.locateFile (r.path config column) = some l →
    u.file? l = t.file? l

/-- Whether no other column has a name of the same text. -/
def Alone (s : Snapshot) (c : Column) : Prop :=
  (s.columns.filter fun d => d.name.text = c.name.text) = [c]

instance (s : Snapshot) (c : Column) : Decidable (Alone s c) :=
  inferInstanceAs (Decidable (_ = _))

/-- The texts that are written for a column that is alone. -/
theorem texts_of_alone (h : Alone s c) (r : Result) :
    ((profiles config s.columns).filter fun p => p.column.text = c.name.text).filterMap
      (r.text? config) = ((fate config c).text? r).toList := by
  rw [filter_profiles, h, profiles, List.filterMap_filterMap, List.filterMap_cons,
    bind_profile?_text?]
  cases (fate config c).text? r <;> rfl

/-- …and the warning. -/
theorem skips_of_alone (h : Alone s c) :
    ((s.columns.filterMap (skip? config)).filter fun skip => skip.1.text = c.name.text) =
      ((fate config c).fault?.map fun fault => (c.name, fault)).toList := by
  have hfilter : ((s.columns.filterMap (skip? config)).filter fun skip =>
      skip.1.text = c.name.text) =
        (s.columns.filter fun d => d.name.text = c.name.text).filterMap (skip? config) := by
    rw [List.filter_filterMap, List.filterMap_filter]
    refine List.filterMap_congr fun d _ => ?_
    rw [skip?_eq]
    cases (fate config d).fault? with
    | none => simp
    | some fault => simp [Option.filter]
  rw [hfilter, h, List.filterMap_cons, skip?_eq]
  cases (fate config c).fault? <;> rfl

/-- **What a run shows of a column that is alone** follows from the column. -/
theorem shows_of_finishes (h : Finishes config t s ws n u) (hs : ∀ d ∈ s.columns, Slashless d.name)
    (hc : Alone s c) : Shows config (fate config c) c.name t ws u := by
  obtain ⟨_, _, haccepts, rfl, _, rfl⟩ := finishes_iff.1 h
  have hmem : c ∈ s.columns := (List.mem_filter.1 (hc ▸ List.mem_singleton_self c)).1
  have hps : ∀ p ∈ profiles config s.columns, Slashless p.column := slashless_of_mem_profiles hs
  refine ⟨?_, fun r text htext => ?_, fun r hnone l hl => ?_⟩
  · rw [skips_flatMap_warnings, skips_of_alone hc]
  · obtain ⟨p, hp, hr⟩ : ∃ p, profile? config c = some p ∧ r.text? config p = some text := by
      rw [← bind_profile?_text?] at htext
      exact Option.bind_eq_some_iff.1 htext
    have hfile := mem_allFiles (mem_profiles_iff.2 ⟨c, hmem, hp⟩) hr
    obtain ⟨l, hl, hdir⟩ := haccepts _ hfile
    rw [column_of_profile? hp] at hl
    refine FileTree.readText_eq_some_iff.2 ⟨l, ?_, ?_⟩
    · rwa [FileTree.locateFile_writeAll]
    · rw [allFiles, get?_result hps (hs c hmem) hl hdir, texts_of_alone hc, htext]
      rfl
  · rw [FileTree.locateFile_writeAll] at hl
    rw [allFiles, file?_result hps (hs c hmem) hl, prepared, FileTree.file?_makeDirectory]
    rw [texts_of_alone hc, hnone]
    rfl

/-! ## What a run counts -/

/-- **The counts of a run account for every column**, and so do its warnings, in order. -/
structure Accounts (config : Config) (s : Snapshot) (ws : List Warning) (n : Counts) : Prop where
  total : n.profiled + n.skipped = s.columns.length
  skipped : n.skipped = (skips ws).length
  inOrder : skips ws =
    s.columns.filterMap fun c => (fate config c).fault?.map fun fault => (c.name, fault)

theorem accounts_of_finishes (h : Finishes config t s ws n u) : Accounts config s ws n := by
  obtain ⟨_, _, _, rfl, rfl, _⟩ := finishes_iff.1 h
  have hskips := skips_flatMap_warnings config s.columns
  refine ⟨?_, ?_, ?_⟩
  · rw [Counts.after, Nat.zero_add, Nat.zero_add, length_profiles_add_length_skips]
  · rw [hskips]
    exact Nat.zero_add _
  · rw [hskips]
    exact List.filterMap_congr fun c _ => skip?_eq config c

/-! ## Columns in another order -/

theorem after_perm {cs cs' : List Column} (h : cs.Perm cs') (counts : Counts) :
    counts.after config cs = counts.after config cs' := by
  have hprofiles : (profiles config cs).Perm (profiles config cs') := h.filterMap _
  rw [Counts.after, Counts.after, hprofiles.length_eq, (h.filterMap _).length_eq,
    (hprofiles.filterMap _).length_eq]

theorem allFiles_perm {cs cs' : List Column} (h : cs.Perm cs') :
    (allFiles config cs).Perm (allFiles config cs') :=
  (h.filterMap _).flatMap_right _

theorem Alone.perm (h : Alone s c) (hp : s'.columns.Perm s.columns) : Alone s' c := by
  have hfilter := hp.filter fun d => d.name.text = c.name.text
  rw [Alone] at h
  rw [h] at hfilter
  exact List.perm_singleton.1 hfilter

/-- Where every column with a file at a location is alone, the files written there do not depend on
the order of the columns. -/
theorem writtenTo_perm (hs : ∀ d ∈ s.columns, Slashless d.name)
    (hp : s'.columns.Perm s.columns)
    (halone : ∀ d ∈ s.columns, ∀ r : Result,
      t.locateFile (r.path config d.name) = some l → Alone s d) :
    t.writtenTo l (allFiles config s'.columns) = t.writtenTo l (allFiles config s.columns) := by
  have hs' : ∀ d ∈ s'.columns, Slashless d.name := fun d hd => hs d (hp.subset hd)
  have hperm : (t.writtenTo l (allFiles config s'.columns)).Perm
      (t.writtenTo l (allFiles config s.columns)) := (allFiles_perm hp).filter _
  cases hfs : t.writtenTo l (allFiles config s.columns) with
  | nil => exact List.perm_nil.1 (hfs ▸ hperm)
  | cons f fs =>
    obtain ⟨hf, hl⟩ := List.mem_filter.1 (hfs ▸ List.mem_cons_self (a := f))
    obtain ⟨d, hd, r, hpath⟩ := exists_of_mem_allFiles hf
    rw [decide_eq_true_eq, hpath] at hl
    have hd' := halone d hd r hl
    rw [← hfs, allFiles, allFiles, writtenTo_files (slashless_of_mem_profiles hs') (hs d hd) hl,
      writtenTo_files (slashless_of_mem_profiles hs) (hs d hd) hl, filter_profiles,
      filter_profiles, hd', hd'.perm hp]

/-- **The order of the columns matters to no file** but those of names that columns share. -/
theorem exists_finishes_of_perm (h : Finishes config t s ws n u)
    (hs : ∀ d ∈ s.columns, Slashless d.name) {text : String} (hp : s'.columns.Perm s.columns)
    (hread : (SnapshotFormat.ofPath config.catalogPath).read? text = some s') :
    ∃ ws' u', Finishes config (t.writeText config.catalogPath text).1 s' ws' n u' ∧
      ∀ l, (∀ d ∈ s.columns, ∀ r : Result,
          u.locateFile (r.path config d.name) = some l → Alone s d) →
        u'.get? l = u.get? l ∨ (t.locateFile config.catalogPath = some l ∧ u.get? l = t.get? l ∧
          u'.get? l = some (.file text)) := by
  obtain ⟨hreads, hmade, haccepts, rfl, rfl, rfl⟩ := finishes_iff.1 h
  obtain ⟨⟨old, hold, _⟩, _⟩ := run_readSnapshot_eq_iff.1 hreads
  obtain ⟨k, hk, halike, hk', hnew⟩ := FileTree.alike_writeText hold text
  generalize (t.writeText config.catalogPath text).1 = t' at halike hk' hnew ⊢
  have hprepared : FileTree.Alike k (prepared config t) (prepared config t') :=
    (halike.makeDirectory config.outputDirectory).1
  refine ⟨s'.columns.flatMap (warnings config),
    (prepared config t').writeAll (allFiles config s'.columns), ?_, fun l halone => ?_⟩
  · rw [after_perm hp.symm]
    refine finishes_iff.2 ⟨run_readSnapshot_eq_iff.2 ⟨⟨text, ?_, hread⟩, rfl⟩, ?_, fun f hf => ?_,
      rfl, rfl, rfl⟩
    · exact FileTree.readText_eq_some_iff.2 ⟨k, hk', hnew⟩
    · exact (halike.makeDirectory config.outputDirectory).2 ▸ hmade
    · exact hprepared.sameDirectories.accepts.1 (haccepts f ((allFiles_perm hp).subset hf))
  · simp only [FileTree.locateFile_writeAll] at halone
    refine (hprepared.get?_writeAll (writtenTo_perm hs hp halone)).imp_right ?_
    rintro ⟨rfl, hkept, hkept'⟩
    -- the snapshot is a file, so making directories leaves it where it is
    obtain ⟨e, he, hfile⟩ := halike.left
    refine ⟨hk, hkept.trans ?_, hkept'.trans ?_⟩
    · rw [hfile]
      exact FileTree.get?_makeDirectory hfile he _
    · exact FileTree.get?_makeDirectory hnew nofun _

/-! ## Independence -/

/-- **Columns are profiled independently.**  Two runs that end well show the same of a column that is
alone in both snapshots: the one that follows from the configuration and the column.  Every run
accounts for all its columns, in order.  And their order matters neither to the counts nor to a file,
but for those of names that columns share. -/
theorem columns_independent {t₁ t₂ u₁ u₂ : FileTree} {s₁ s₂ : Snapshot} {ws₁ ws₂ : List Warning}
    {n₁ n₂ : Counts} (h₁ : Finishes config t₁ s₁ ws₁ n₁ u₁) (h₂ : Finishes config t₂ s₂ ws₂ n₂ u₂)
    (hs₁ : ∀ d ∈ s₁.columns, Slashless d.name) (hs₂ : ∀ d ∈ s₂.columns, Slashless d.name)
    (hc₁ : Alone s₁ c) (hc₂ : Alone s₂ c) :
    (Shows config (fate config c) c.name t₁ ws₁ u₁ ∧
      Shows config (fate config c) c.name t₂ ws₂ u₂) ∧
    (Accounts config s₁ ws₁ n₁ ∧ Accounts config s₂ ws₂ n₂) ∧
    ∀ s text, s.columns.Perm s₁.columns →
      (SnapshotFormat.ofPath config.catalogPath).read? text = some s →
      ∃ ws u, Finishes config (t₁.writeText config.catalogPath text).1 s ws n₁ u ∧
        ∀ l, (∀ d ∈ s₁.columns, ∀ r : Result,
            u₁.locateFile (r.path config d.name) = some l → Alone s₁ d) →
          u.get? l = u₁.get? l ∨ (t₁.locateFile config.catalogPath = some l ∧
            u₁.get? l = t₁.get? l ∧ u.get? l = some (.file text)) :=
  ⟨⟨shows_of_finishes h₁ hs₁ hc₁, shows_of_finishes h₂ hs₂ hc₂⟩,
    ⟨accounts_of_finishes h₁, accounts_of_finishes h₂⟩,
    fun _ _ hp hread => exists_finishes_of_perm h₁ hs₁ hp hread⟩

/-- A column, and two others that share their name. -/
def sharedText : String :=
  "[[[\"s\",\"t\",\"c\",[\"INTEGER\"]],[\"s\",\"t\",\"d\",[\"INTEGER\"]]," ++
    "[\"s\",\"t\",\"d\",[\"INTEGER\"],null,0,1]]]"

/-- The same columns with the last two in the other order. -/
def swappedText : String :=
  "[[[\"s\",\"t\",\"c\",[\"INTEGER\"]],[\"s\",\"t\",\"d\",[\"INTEGER\"],null,0,1]," ++
    "[\"s\",\"t\",\"d\",[\"INTEGER\"]]]]"

/-- The names of the columns of these snapshots, with their numbers of rows without a value. -/
def sharedNames (before after : UInt64) : List (QualifiedName × UInt64) :=
  [(⟨"s", "t", "c"⟩, 0), (⟨"s", "t", "d"⟩, before), (⟨"s", "t", "d"⟩, after)]

/-- The columns of these snapshots. -/
def sharedColumns (before after : UInt64) : List Column :=
  (sharedNames before after).map fun x => bareColumn x.1 x.2

theorem read?_sharedText : Snapshot.ofJsonText? sharedText = some ⟨sharedColumns 0 1⟩ := by
  decide +kernel

theorem read?_swappedText : Snapshot.ofJsonText? swappedText = some ⟨sharedColumns 1 0⟩ := by
  decide +kernel

theorem nameable_sharedColumns (before after : UInt64) :
    ∀ n ∈ (sharedColumns before after).map Column.name, Nameable n := by
  have hnames : (sharedColumns before after).map Column.name =
      [⟨"s", "t", "c"⟩, ⟨"s", "t", "d"⟩, ⟨"s", "t", "d"⟩] := rfl
  rw [hnames]
  decide

theorem alone_sharedColumns (before after : UInt64) :
    Alone ⟨sharedColumns before after⟩ (bareColumn ⟨"s", "t", "c"⟩ 0) := rfl

/-- Two snapshots that hold a column, with others in a different order: the first column is written
with the same text. -/
theorem columns_independent_shared : ∃ ws₁ n₁ u₁ ws₂ n₂ u₂,
    Finishes distantConfig (distantTree sharedText []) ⟨sharedColumns 0 1⟩ ws₁ n₁ u₁ ∧
    Finishes distantConfig (distantTree swappedText []) ⟨sharedColumns 1 0⟩ ws₂ n₂ u₂ ∧
    u₁.readText "../out/s.t.c.dist" =
      some "numberOfExactValues=0\nnumberOfBins=0\nnullProbability=0\n" ∧
    u₂.readText "../out/s.t.c.dist" =
      some "numberOfExactValues=0\nnumberOfBins=0\nnullProbability=0\n" := by
  have hready₁ := ready_distant [] read?_sharedText (nameable_sharedColumns 0 1)
  have hready₂ := ready_distant [] read?_swappedText (nameable_sharedColumns 1 0)
  obtain ⟨⟨hshows₁, hshows₂⟩, _⟩ := columns_independent hready₁.finishes hready₂.finishes
    hready₁.slashless hready₂.slashless (alone_sharedColumns _ _) (alone_sharedColumns _ _)
  have hfate : (fate distantConfig (bareColumn ⟨"s", "t", "c"⟩ 0)).text? .distribution =
      some "numberOfExactValues=0\nnumberOfBins=0\nnullProbability=0\n" := by
    rw [← bind_profile?_text?, profile?_bareColumn rfl]
    decide
  have hpath : Result.distribution.path distantConfig ⟨"s", "t", "c"⟩ = "../out/s.t.c.dist" := by
    decide
  rw [← hpath]
  exact ⟨_, _, _, _, _, _, hready₁.finishes, hready₂.finishes, hshows₁.saved _ _ hfate,
    hshows₂.saved _ _ hfate⟩

/-- A run over these columns in a working directory. -/
theorem ready_shared {text : String} {before after : UInt64}
    (h : Snapshot.ofJsonText? text = some ⟨sharedColumns before after⟩) :
    Ready sampleConfig (sampleTree text) ⟨sharedColumns before after⟩ :=
  ready_sample h (nameable_sharedColumns before after)

/-- The file of the shared name is that of the last column. -/
theorem readText_sharedColumns {before after : UInt64} {ws : List Warning} {n : Counts}
    {t u : FileTree} (h : Finishes sampleConfig t ⟨sharedColumns before after⟩ ws n u)
    (hs : ∀ d ∈ sharedColumns before after, Slashless d.name) :
    u.readText (Result.distribution.path sampleConfig ⟨"s", "t", "d"⟩) =
      some (Profile.bare .integer (bareColumn ⟨"s", "t", "d"⟩ after)).distribution := by
  have hprofiles : profiles sampleConfig (sharedColumns before after) =
      [.bare .integer (bareColumn ⟨"s", "t", "c"⟩ 0),
        .bare .integer (bareColumn ⟨"s", "t", "d"⟩ before),
        .bare .integer (bareColumn ⟨"s", "t", "d"⟩ after)] := profiles_bareColumns rfl _
  have hmem : .bare .integer (bareColumn ⟨"s", "t", "d"⟩ after) ∈
      profiles sampleConfig (sharedColumns before after) := by
    rw [hprofiles]
    exact List.mem_cons_of_mem _ (List.mem_cons_of_mem _ List.mem_cons_self)
  obtain ⟨q, hlast, hq⟩ := readText_distribution h hs hmem
  rw [hprofiles] at hlast
  obtain rfl := Option.some.inj hlast
  exact hq

/-- **Names that columns share have to be left out**: two other columns of one name in another order
leave another file. -/
theorem columns_not_independent : ∃ config t s₁ s₂ text c ws₁ n₁ u₁ ws₂ n₂ u₂,
    Finishes config t s₁ ws₁ n₁ u₁ ∧ (∀ d ∈ s₁.columns, Slashless d.name) ∧ Alone s₁ c ∧
    s₂.columns.Perm s₁.columns ∧ Alone s₂ c ∧
    Finishes config (t.writeText config.catalogPath text).1 s₂ ws₂ n₂ u₂ ∧
    ∃ d ∈ s₁.columns, u₂.readText (Result.distribution.path config d.name) ≠
      u₁.readText (Result.distribution.path config d.name) := by
  have hready₁ := ready_shared read?_sharedText
  have hready₂ := ready_shared read?_swappedText
  refine ⟨sampleConfig, sampleTree sharedText, ⟨sharedColumns 0 1⟩, ⟨sharedColumns 1 0⟩, swappedText,
    bareColumn ⟨"s", "t", "c"⟩ 0, _, _, _, _, _, _, hready₁.finishes, hready₁.slashless,
    alone_sharedColumns 0 1, .cons _ (.swap _ _ []), alone_sharedColumns 1 0, hready₂.finishes,
    bareColumn ⟨"s", "t", "d"⟩ 0, List.mem_cons_of_mem _ List.mem_cons_self, ?_⟩
  rw [bareColumn, readText_sharedColumns hready₁.finishes hready₁.slashless,
    readText_sharedColumns hready₂.finishes hready₂.slashless]
  decide

end CatalogStats.Run
