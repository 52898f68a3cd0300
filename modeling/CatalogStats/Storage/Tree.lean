import CatalogStats.Storage.Basic

/-!
# Storage/Tree — files and directories in memory

A tree records what is found at each location under the root of all directories.  Absolute paths start
at the root, all others at the working directory, and two full stops at the root lead nowhere else.
Every entry is a file or a directory; there are no links and no permissions.  `FileTree.storage` is
the storage that a run can use in place of a disk.
-/

namespace CatalogStats

/-- What is found at a location. -/
inductive Entry where
  | directory
  | file (text : String)
  /-- A file that holds no text. -/
  | binary
  deriving Repr, DecidableEq

/-- The names that lead from the root to a file or directory. -/
abbrev Location := List String

/-- Files and directories, and the directory in which a run takes place. -/
structure FileTree where
  entries : List (Location × Entry)
  workingDirectory : Location := []
  deriving Repr, DecidableEq

namespace FileTree

/-- A root without entries, which is the working directory. -/
def empty : FileTree := { entries := [] }

/-- **What is found at a location.**  The working directory and those above it are always there. -/
def get? (t : FileTree) (l : Location) : Option Entry :=
  if l <+: t.workingDirectory then some .directory else t.entries.lookup l

/-- Puts an entry at a location in place of what was there. -/
def put (t : FileTree) (l : Location) (e : Entry) : FileTree :=
  { t with entries := (l, e) :: t.entries.filter fun entry => entry.1 ≠ l }

/-- Whether there is a directory at a location. -/
def isDirectory (t : FileTree) (l : Location) : Bool := t.get? l == some .directory

/-- The location that steps lead to from another one.  Every location on the way has to be a
directory. -/
def walk (t : FileTree) : Location → List String → Option Location
  | l, [] => some l
  | l, s :: steps =>
    if t.isDirectory l then
      if s = Path.up then t.walk l.dropLast steps
      else if Path.isName s then t.walk (l ++ [s]) steps
      else none
    else none

/-- Where the steps of a path start. -/
def start (t : FileTree) (p : Path) : Location := if p.absolute then [] else t.workingDirectory

/-- The location that a path leads to. -/
def follow (t : FileTree) (p : Path) : Option Location := t.walk (t.start p) p.steps

/-- The location of the path in a text, which must not be empty. -/
def locate (t : FileTree) (path : String) : Option Location :=
  if path = "" then none else t.follow (Path.ofText path)

/-- The location of a path to a file. -/
def locateFile (t : FileTree) (path : String) : Option Location :=
  if (Path.ofText path).toDirectory then none else t.locate path

/-- Whether a path leads to a file. -/
def isFile (t : FileTree) (path : String) : Bool :=
  match (t.locateFile path).bind t.get? with
  | some .directory => false
  | some _ => true
  | none => false

/-- The text of the file that a path leads to. -/
def readText (t : FileTree) (path : String) : Option String :=
  match (t.locateFile path).bind t.get? with
  | some (.file text) => some text
  | _ => none

/-- Makes the directories on the way from a location, and says whether all of them are there then. -/
def makeSteps (t : FileTree) : Location → List String → FileTree × Bool
  | _, [] => (t, true)
  | l, s :: steps =>
    if s = Path.up then t.makeSteps l.dropLast steps
    else if Path.isName s then
      match t.get? (l ++ [s]) with
      | some .directory => t.makeSteps (l ++ [s]) steps
      | some _ => (t, false)
      | none => (t.put (l ++ [s]) .directory).makeSteps (l ++ [s]) steps
    else (t, false)

/-- Makes a directory and those above it.  The empty path is that of the working directory. -/
def makeDirectory (t : FileTree) (path : String) : FileTree × Bool :=
  let p := Path.ofText path
  t.makeSteps (t.start p) p.steps

/-- **Writes a file**, if the directory that is to hold it exists. -/
def writeText (t : FileTree) (path text : String) : FileTree × Bool :=
  match t.locateFile path with
  | some l => if t.isDirectory l then (t, false) else (t.put l (.file text), true)
  | none => (t, false)

/-- A tree as a storage. -/
def storage : Storage (StateM FileTree) where
  isFile path := do return (← get).isFile path
  readText path := do return (← get).readText path
  makeDirectory path := modifyGet fun t =>
    let (t, made) := t.makeDirectory path
    (made, t)
  writeText path text := modifyGet fun t =>
    let (t, written) := t.writeText path text
    (written, t)

/-! ## Looking up what was put -/

theorem get?_of_above {t : FileTree} {l : Location} (h : l <+: t.workingDirectory) :
    t.get? l = some .directory := if_pos h

@[simp] theorem workingDirectory_put (t : FileTree) (l : Location) (e : Entry) :
    (t.put l e).workingDirectory = t.workingDirectory := rfl

theorem get?_put_self {t : FileTree} {l : Location} {e : Entry} (h : ¬ l <+: t.workingDirectory) :
    (t.put l e).get? l = some e := by
  rw [get?, workingDirectory_put, if_neg h, put, List.lookup_cons_self]

/-- A directory is found wherever it is put. -/
theorem get?_put_directory (t : FileTree) (l : Location) :
    (t.put l .directory).get? l = some .directory := by
  by_cases h : l <+: t.workingDirectory
  · exact get?_of_above h
  · exact get?_put_self h

theorem lookup_filter_ne {l k : Location} (h : k ≠ l) (es : List (Location × Entry)) :
    (es.filter fun entry => entry.1 ≠ l).lookup k = es.lookup k := by
  induction es with
  | nil => rfl
  | cons e es ih =>
    by_cases hl : e.1 = l
    · rw [List.filter_cons_of_neg (by simpa using hl), ih, List.lookup_cons]
      have hk : (k == e.1) = false := by simpa [hl] using h
      simp [hk]
    · rw [List.filter_cons_of_pos (by simpa using hl), List.lookup_cons, List.lookup_cons, ih]

/-- **Putting an entry somewhere changes nothing elsewhere.** -/
theorem get?_put_of_ne {t : FileTree} {l k : Location} {e : Entry} (h : k ≠ l) :
    (t.put l e).get? k = t.get? k := by
  have hne : (k == l) = false := by simpa using h
  rw [get?, get?, workingDirectory_put, put, List.lookup_cons, hne]
  exact congrArg (ite _ _) (lookup_filter_ne h _)

end FileTree

end CatalogStats
