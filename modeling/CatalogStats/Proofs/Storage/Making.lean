import CatalogStats.Proofs.Storage.Paths

/-!
# Proofs/Storage/Making — directories that are made

Making directories puts directories where nothing was and does nothing else (`makeSteps_preserves`), so
no file is touched (`file?_makeDirectory`).  What was made is there: the path leads to a directory
afterwards, wherever it starts and whichever steps it takes (`exists_follow_of_makeDirectory`).
-/

namespace CatalogStats.FileTree

variable {t : FileTree} {l k : Location} {steps : List String}

/-! ## What stays -/

/-- **What directories in the place of nothing leave true** is true after making directories. -/
theorem makeSteps_preserves {P : FileTree → Prop}
    (hput : ∀ t l, t.get? l = none → P t → P (t.put l .directory)) (h : P t) (l : Location)
    (steps : List String) : P (t.makeSteps l steps).1 := by
  induction steps generalizing t l with
  | nil => exact h
  | cons s steps ih =>
    rw [makeSteps]
    split
    · exact ih h _
    · split
      · split
        · exact ih h _
        · exact h
        case h_3 hnone => exact ih (hput t _ hnone h) _
      · exact h

theorem workingDirectory_makeDirectory (t : FileTree) (path : String) :
    (t.makeDirectory path).1.workingDirectory = t.workingDirectory :=
  makeSteps_preserves (P := fun u => u.workingDirectory = t.workingDirectory)
    (fun _ _ _ h => h) rfl _ _

/-- What a location holds, unless that is a directory. -/
def file? (t : FileTree) (l : Location) : Option Entry := (t.get? l).filter (· ≠ .directory)

theorem file?_put_directory (h : t.get? l = none) (k : Location) :
    (t.put l .directory).file? k = t.file? k := by
  by_cases hk : k = l
  · rw [hk, file?, file?, get?_put_directory, h]
    rfl
  · rw [file?, file?, get?_put_of_ne hk]

/-- **Making directories touches no file.** -/
theorem file?_makeDirectory (t : FileTree) (path : String) (k : Location) :
    (t.makeDirectory path).1.file? k = t.file? k :=
  makeSteps_preserves (P := fun u => u.file? k = t.file? k)
    (fun _ _ hnone h => (file?_put_directory hnone k).trans h) rfl _ _

/-- …so a file stays where it is. -/
theorem get?_makeDirectory {e : Entry} (h : t.get? l = some e) (he : e ≠ .directory)
    (path : String) : (t.makeDirectory path).1.get? l = some e := by
  have hfile : (t.makeDirectory path).1.file? l = some e := by
    rw [file?_makeDirectory, file?, h]
    exact Option.filter_some_pos (decide_eq_true he)
  exact (Option.filter_eq_some_iff.1 hfile).1

/-! ## What is made -/

/-- Whether a location and all those above it are directories. -/
def Open (t : FileTree) (l : Location) : Prop := ∀ k, k <+: l → t.isDirectory k = true

theorem Open.isDirectory (h : t.Open l) : t.isDirectory l = true := h l List.prefix_rfl

/-- Paths start where the way is open… -/
theorem open_start (t : FileTree) (p : Path) : t.Open (t.start p) := by
  intro k hk
  refine beq_iff_eq.2 (get?_of_above ?_)
  rw [start] at hk
  split at hk
  · exact List.prefix_nil.1 hk ▸ List.nil_prefix
  · exact hk

/-- …and it stays open on the way up… -/
theorem Open.dropLast (h : t.Open l) : t.Open l.dropLast :=
  fun k hk => h k (hk.trans (List.dropLast_prefix l))

/-- …on the way down to a directory… -/
theorem Open.concat {s : String} (h : t.Open l) (hs : t.isDirectory (l ++ [s]) = true) :
    t.Open (l ++ [s]) := by
  intro k hk
  rcases List.prefix_concat_iff.1 hk with rfl | hk
  · exact hs
  · exact h k hk

/-- …and wherever directories are added. -/
theorem Open.put (h : t.Open l) (k : Location) : (t.put k .directory).Open l := by
  intro j hj
  by_cases hjk : j = k
  · exact beq_iff_eq.2 (hjk ▸ get?_put_directory t k)
  · rw [FileTree.isDirectory, get?_put_of_ne hjk]
    exact h j hj

theorem Open.makeSteps (h : t.Open k) (l : Location) (steps : List String) :
    (t.makeSteps l steps).1.Open k :=
  makeSteps_preserves (P := fun u => u.Open k) (fun _ l _ h => h.put l) h l steps

/-- **Steps that were made can be taken**, and lead to a directory. -/
theorem exists_walk_of_makeSteps (h : t.Open l) (hmade : (t.makeSteps l steps).2 = true) :
    ∃ k, (t.makeSteps l steps).1.walk l steps = some k ∧ (t.makeSteps l steps).1.Open k := by
  induction steps generalizing t l with
  | nil => exact ⟨l, rfl, h⟩
  | cons s steps ih =>
    have hl := (h.makeSteps l (s :: steps)).isDirectory
    rw [makeSteps] at hl hmade ⊢
    by_cases hup : s = Path.up
    · rw [if_pos hup] at hl hmade ⊢
      rw [hup, walk_up hl]
      exact ih h.dropLast hmade
    rw [if_neg hup] at hl hmade ⊢
    by_cases hname : Path.isName s = true
    · rw [if_pos hname] at hl hmade ⊢
      rw [walk_cons_of_isDirectory hl hup hname]
      split at hmade
      case h_1 hfound => exact ih (h.concat (beq_iff_eq.2 hfound)) hmade
      case h_2 => cases hmade
      case h_3 => exact ih ((h.put _).concat (beq_iff_eq.2 (get?_put_directory t _))) hmade
    · rw [if_neg hname] at hmade
      cases hmade

/-- **A directory that was made is there**: its path leads to it. -/
theorem exists_follow_of_makeDirectory {path : String} (h : (t.makeDirectory path).2 = true) :
    ∃ k, (t.makeDirectory path).1.follow (Path.ofText path) = some k ∧
      (t.makeDirectory path).1.isDirectory k = true := by
  obtain ⟨k, hk, hopen⟩ := exists_walk_of_makeSteps (t.open_start (Path.ofText path)) h
  have hstart : (t.makeDirectory path).1.start (Path.ofText path) = t.start (Path.ofText path) := by
    rw [start, start, workingDirectory_makeDirectory]
  exact ⟨k, by rw [follow, hstart]; exact hk, hopen.isDirectory⟩

end CatalogStats.FileTree
