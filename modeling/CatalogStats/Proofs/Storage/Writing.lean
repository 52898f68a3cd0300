import CatalogStats.Proofs.Storage.Making

/-!
# Proofs/Storage/Writing — what files written one after the other leave behind

Writing a file makes and removes no directory, so a list of writes can be judged in the tree in which
it starts: `Accepts` says which paths can be written, and a location holds the text of the last file
written there or what it held before (`get?_writeAll`).  Trees that differ only in the text of a file
differ in nothing else afterwards (`Alike`).
-/

namespace CatalogStats.FileTree

variable {t t' : FileTree} {l k : Location} {path text : String} {steps : List String}
  {fs : List (String × String)}

/-! ## Directories -/

theorem isDirectory_eq_false_iff : t.isDirectory l = false ↔ t.get? l ≠ some .directory :=
  beq_eq_false_iff_ne

theorem file?_eq_get? (h : t.isDirectory l = false) : t.file? l = t.get? l := by
  rw [file?]
  cases hg : t.get? l with
  | none => rfl
  | some e =>
    have he : e ≠ .directory := fun he => isDirectory_eq_false_iff.1 h (he ▸ hg)
    exact Option.filter_some_pos (decide_eq_true he)

theorem not_above_of_isDirectory_eq_false (h : t.isDirectory l = false) :
    ¬ l <+: t.workingDirectory :=
  fun hl => isDirectory_eq_false_iff.1 h (get?_of_above hl)

/-- Trees with the same directories, of which the same one is the working directory. -/
structure SameDirectories (t t' : FileTree) : Prop where
  workingDirectory : t.workingDirectory = t'.workingDirectory
  isDirectory : ∀ k, t.isDirectory k = t'.isDirectory k

namespace SameDirectories

theorem symm (h : SameDirectories t t') : SameDirectories t' t :=
  ⟨h.workingDirectory.symm, fun k => (h.isDirectory k).symm⟩

theorem trans {t'' : FileTree} (h : SameDirectories t t') (h' : SameDirectories t' t'') :
    SameDirectories t t'' :=
  ⟨h.workingDirectory.trans h'.workingDirectory,
    fun k => (h.isDirectory k).trans (h'.isDirectory k)⟩

theorem walk (h : SameDirectories t t') (l : Location) (steps : List String) :
    t.walk l steps = t'.walk l steps := by
  induction steps generalizing l with
  | nil => rfl
  | cons s steps ih => rw [FileTree.walk, FileTree.walk, h.isDirectory, ih, ih]

/-- **Where paths lead** depends on nothing but the directories. -/
theorem locateFile (h : SameDirectories t t') (path : String) :
    t.locateFile path = t'.locateFile path := by
  rw [FileTree.locateFile, FileTree.locateFile, locate, locate, follow, follow, start, start,
    h.workingDirectory, h.walk]

end SameDirectories

/-- A file in the place of a file or of nothing leaves the directories as they are. -/
theorem sameDirectories_put_file (h : t.isDirectory l = false) :
    SameDirectories (t.put l (.file text)) t := by
  refine ⟨rfl, fun k => ?_⟩
  by_cases hk : k = l
  · rw [hk, h, isDirectory_eq_false_iff, get?_put_self (not_above_of_isDirectory_eq_false h)]
    exact nofun
  · rw [isDirectory, get?_put_of_ne hk, isDirectory]

/-! ## Writing a file -/

/-- Whether a file can be written: there is a place for it, which is no directory. -/
def Accepts (t : FileTree) (path : String) : Prop :=
  ∃ l, t.locateFile path = some l ∧ t.isDirectory l = false

theorem SameDirectories.accepts (h : SameDirectories t t') : t.Accepts path ↔ t'.Accepts path := by
  rw [Accepts, Accepts, h.locateFile]
  simp only [h.isDirectory]

/-- The text of a file is put where the path leads. -/
theorem writeText_of_locate (h : t.locateFile path = some l) (hl : t.isDirectory l = false) :
    t.writeText path text = (t.put l (.file text), true) := by
  rw [writeText, h]
  exact if_neg (Bool.eq_false_iff.1 hl)

theorem writeText_of_not_accepts (h : ¬ t.Accepts path) : t.writeText path text = (t, false) := by
  rw [writeText]
  split
  case h_1 l hl =>
    split
    · rfl
    case isFalse hd => exact absurd ⟨l, hl, Bool.eq_false_iff.2 hd⟩ h
  case h_2 => rfl

/-- **A file is written exactly where it is accepted.** -/
theorem writeText_snd_iff : (t.writeText path text).2 = true ↔ t.Accepts path := by
  constructor
  · intro h
    refine Classical.byContradiction fun hn => ?_
    rw [writeText_of_not_accepts hn] at h
    cases h
  · rintro ⟨l, hl, hd⟩
    rw [writeText_of_locate hl hd]

theorem sameDirectories_writeText (t : FileTree) (path text : String) :
    SameDirectories (t.writeText path text).1 t := by
  by_cases h : t.Accepts path
  · obtain ⟨l, hl, hd⟩ := h
    rw [writeText_of_locate hl hd]
    exact sameDirectories_put_file hd
  · rw [writeText_of_not_accepts h]
    exact ⟨rfl, fun _ => rfl⟩

/-- Nothing changes away from where the path leads. -/
theorem get?_writeText_of_ne (h : t.locateFile path ≠ some l) :
    (t.writeText path text).1.get? l = t.get? l := by
  by_cases ha : t.Accepts path
  · obtain ⟨k, hk, hd⟩ := ha
    rw [writeText_of_locate hk hd]
    exact get?_put_of_ne fun hl => h (hl ▸ hk)
  · rw [writeText_of_not_accepts ha]

theorem get?_writeText_self (h : t.locateFile path = some l) (hl : t.isDirectory l = false) :
    (t.writeText path text).1.get? l = some (.file text) := by
  rw [writeText_of_locate h hl]
  exact get?_put_self (not_above_of_isDirectory_eq_false hl)

/-! ## Writing files one after the other -/

/-- Writes files in order. -/
def writeAll (t : FileTree) (fs : List (String × String)) : FileTree :=
  fs.foldl (fun t f => (t.writeText f.1 f.2).1) t

theorem writeAll_cons (t : FileTree) (f : String × String) (fs : List (String × String)) :
    t.writeAll (f :: fs) = (t.writeText f.1 f.2).1.writeAll fs := rfl

theorem writeAll_append (t : FileTree) (fs gs : List (String × String)) :
    t.writeAll (fs ++ gs) = (t.writeAll fs).writeAll gs := List.foldl_append

theorem sameDirectories_writeAll (t : FileTree) (fs : List (String × String)) :
    SameDirectories (t.writeAll fs) t := by
  induction fs generalizing t with
  | nil => exact ⟨rfl, fun _ => rfl⟩
  | cons f fs ih => exact (ih _).trans (sameDirectories_writeText t f.1 f.2)

theorem isDirectory_writeAll (t : FileTree) (fs : List (String × String)) (k : Location) :
    (t.writeAll fs).isDirectory k = t.isDirectory k := (sameDirectories_writeAll t fs).isDirectory k

theorem locateFile_writeAll (t : FileTree) (fs : List (String × String)) (path : String) :
    (t.writeAll fs).locateFile path = t.locateFile path :=
  (sameDirectories_writeAll t fs).locateFile path

theorem accepts_writeAll : (t.writeAll fs).Accepts path ↔ t.Accepts path :=
  (sameDirectories_writeAll t fs).accepts

/-- The files that are written to a location. -/
def writtenTo (t : FileTree) (l : Location) (fs : List (String × String)) :
    List (String × String) := fs.filter fun f => t.locateFile f.1 = some l

theorem writtenTo_writeText (t : FileTree) (f : String × String) :
    (t.writeText f.1 f.2).1.writtenTo l fs = t.writtenTo l fs := by
  rw [writtenTo, writtenTo, funext (sameDirectories_writeText t f.1 f.2).locateFile]

/-- **A location holds the last file written there**, or else what it held before. -/
theorem get?_writeAll (hl : t.isDirectory l = false) : (t.writeAll fs).get? l =
    ((t.writtenTo l fs).getLast?.map fun f => .file f.2).or (t.get? l) := by
  induction fs generalizing t with
  | nil => rfl
  | cons f fs ih =>
    have hafter := (sameDirectories_writeText t f.1 f.2).isDirectory l
    rw [writeAll_cons, ih (hafter.trans hl), writtenTo_writeText]
    by_cases hf : t.locateFile f.1 = some l
    · have hcons : t.writtenTo l (f :: fs) = f :: t.writtenTo l fs :=
        List.filter_cons_of_pos (decide_eq_true hf)
      rw [hcons, get?_writeText_self hf hl, List.getLast?_cons]
      cases (t.writtenTo l fs).getLast? <;> rfl
    · have hskip : t.writtenTo l (f :: fs) = t.writtenTo l fs :=
        List.filter_cons_of_neg (by simpa using hf)
      rw [hskip, get?_writeText_of_ne hf]

/-- A text can be read where a path leads to the file that holds it. -/
theorem readText_eq_some_iff : t.readText path = some text ↔
    ∃ l, t.locateFile path = some l ∧ t.get? l = some (.file text) := by
  constructor
  · intro h
    rw [readText] at h
    split at h
    case h_1 _ hfile =>
      obtain rfl := Option.some.inj h
      exact Option.bind_eq_some_iff.1 hfile
    case h_2 => cases h
  · rintro ⟨l, hl, hget⟩
    rw [readText, hl, Option.bind_some, hget]

/-! ## Trees that differ in the text of a file -/

/-- Two trees that are the same but for a location, where both have a file. -/
structure Alike (l : Location) (t t' : FileTree) : Prop where
  workingDirectory : t.workingDirectory = t'.workingDirectory
  elsewhere : ∀ k, k ≠ l → t.get? k = t'.get? k
  left : ∃ e, e ≠ .directory ∧ t.get? l = some e
  right : ∃ e, e ≠ .directory ∧ t'.get? l = some e

namespace Alike

theorem sameDirectories (h : Alike l t t') : SameDirectories t t' := by
  refine ⟨h.workingDirectory, fun k => ?_⟩
  by_cases hk : k = l
  · obtain ⟨e, he, hleft⟩ := h.left
    obtain ⟨e', he', hright⟩ := h.right
    rw [hk, isDirectory_eq_false_iff.2 fun heq => he (Option.some.inj (hleft ▸ heq)),
      isDirectory_eq_false_iff.2 fun heq => he' (Option.some.inj (hright ▸ heq))]
  · rw [isDirectory, isDirectory, h.elsewhere k hk]

/-- The same directory is put where neither has a file. -/
theorem put_directory (h : Alike l t t') (hk : k ≠ l) :
    Alike l (t.put k .directory) (t'.put k .directory) := by
  refine ⟨h.workingDirectory, fun j hj => ?_, ?_, ?_⟩
  · by_cases hjk : j = k
    · rw [hjk, get?_put_directory, get?_put_directory]
    · rw [get?_put_of_ne hjk, get?_put_of_ne hjk, h.elsewhere j hj]
  · rw [get?_put_of_ne hk.symm]
    exact h.left
  · rw [get?_put_of_ne hk.symm]
    exact h.right

/-- **Both make the same directories.** -/
theorem makeSteps (h : Alike l t t') (k : Location) (steps : List String) :
    Alike l (t.makeSteps k steps).1 (t'.makeSteps k steps).1 ∧
      (t.makeSteps k steps).2 = (t'.makeSteps k steps).2 := by
  induction steps generalizing t t' k with
  | nil => exact ⟨h, rfl⟩
  | cons s steps ih =>
    rw [FileTree.makeSteps, FileTree.makeSteps]
    by_cases hup : s = Path.up
    · rw [if_pos hup, if_pos hup]
      exact ih h _
    rw [if_neg hup, if_neg hup]
    split
    case isFalse => exact ⟨h, rfl⟩
    by_cases hs : k ++ [s] = l
    · -- a file is in the way
      obtain ⟨e, he, hleft⟩ := h.left
      obtain ⟨e', he', hright⟩ := h.right
      rw [hs, hleft, hright]
      cases e <;> cases e' <;> first | exact ⟨h, rfl⟩ | exact absurd rfl he | exact absurd rfl he'
    · rw [h.elsewhere _ hs]
      split
      · exact ih h _
      · exact ⟨h, rfl⟩
      · exact ih (h.put_directory hs) _

theorem makeDirectory (h : Alike l t t') (path : String) :
    Alike l (t.makeDirectory path).1 (t'.makeDirectory path).1 ∧
      (t.makeDirectory path).2 = (t'.makeDirectory path).2 := by
  rw [FileTree.makeDirectory, FileTree.makeDirectory, start, start, ← h.workingDirectory]
  exact h.makeSteps _ _

/-- **The same files leave the same** at a location, unless it is that of the text and nothing is
written there. -/
theorem get?_writeAll {fs' : List (String × String)} (h : Alike k t t')
    (hfs : t.writtenTo l fs' = t.writtenTo l fs) :
    (t'.writeAll fs').get? l = (t.writeAll fs).get? l ∨
      (l = k ∧ (t.writeAll fs).get? l = t.get? l ∧ (t'.writeAll fs').get? l = t'.get? l) := by
  have hwritten : t'.writtenTo l fs' = t.writtenTo l fs := by
    rw [← hfs, writtenTo, writtenTo, funext h.sameDirectories.symm.locateFile]
  cases hdir : t.isDirectory l with
  | true =>
    have hleft : (t.writeAll fs).isDirectory l = true := by rwa [isDirectory_writeAll]
    have hright : (t'.writeAll fs').isDirectory l = true := by
      rwa [isDirectory_writeAll, ← h.sameDirectories.isDirectory]
    exact .inl ((beq_iff_eq.1 hright).trans (beq_iff_eq.1 hleft).symm)
  | false =>
    have hdir' : t'.isDirectory l = false := (h.sameDirectories.isDirectory l).symm.trans hdir
    rw [FileTree.get?_writeAll hdir, FileTree.get?_writeAll hdir', hwritten]
    cases (t.writtenTo l fs).getLast? with
    | some f => exact .inl rfl
    | none =>
      by_cases hl : l = k
      · exact .inr ⟨hl, rfl, rfl⟩
      · exact .inl (h.elsewhere l hl).symm

end Alike

/-- Another text in the place of that of a file. -/
theorem alike_writeText {old : String} (h : t.readText path = some old) (text : String) :
    ∃ l, t.locateFile path = some l ∧ Alike l t (t.writeText path text).1 ∧
      (t.writeText path text).1.locateFile path = some l ∧
      (t.writeText path text).1.get? l = some (.file text) := by
  obtain ⟨l, hl, hget⟩ := readText_eq_some_iff.1 h
  have hd : t.isDirectory l = false :=
    isDirectory_eq_false_iff.2 fun hdir => nomatch hget.symm.trans hdir
  have hself : (t.writeText path text).1.get? l = some (.file text) := get?_writeText_self hl hd
  have hdirs : SameDirectories (t.writeText path text).1 t := sameDirectories_writeText t path text
  have hsame : (t.writeText path text).1.locateFile path = some l := by rw [hdirs.locateFile, hl]
  refine ⟨l, hl, ⟨hdirs.workingDirectory.symm, fun k hk => ?_, ⟨.file old, nofun, hget⟩,
    ⟨.file text, nofun, hself⟩⟩, hsame, hself⟩
  refine (get?_writeText_of_ne fun heq => hk ?_).symm
  exact Option.some.inj (heq.symm.trans hl)

end CatalogStats.FileTree
