/-!
# Storage/Path — paths as steps through directories

A path is a text of steps with slashes between them.  Empty steps and single full stops lead nowhere
and do not count; two full stops lead to the directory above.
-/

namespace CatalogStats

/-- The parts of a text between the places of a character. -/
def splitAt (mark : Char) : List Char → List (List Char)
  | [] => [[]]
  | c :: cs =>
    if c = mark then [] :: splitAt mark cs
    else
      match splitAt mark cs with
      | [] => [[c]]
      | part :: parts => (c :: part) :: parts

theorem splitAt_ne_nil (mark : Char) (cs : List Char) : splitAt mark cs ≠ [] := by
  cases cs with
  | nil => exact List.cons_ne_nil _ _
  | cons c cs =>
    rw [splitAt]
    split
    · exact List.cons_ne_nil _ _
    · split <;> exact List.cons_ne_nil _ _

/-- A text without the character is its only part. -/
theorem splitAt_of_not_mem {mark : Char} {cs : List Char} (h : mark ∉ cs) :
    splitAt mark cs = [cs] := by
  induction cs with
  | nil => rfl
  | cons c cs ih =>
    rw [List.mem_cons, not_or] at h
    rw [splitAt, if_neg (Ne.symm h.1), ih h.2]

/-- **The character divides the parts** of what stands before it from those of what follows. -/
theorem splitAt_append_cons (mark : Char) (cs ds : List Char) :
    splitAt mark (cs ++ mark :: ds) = splitAt mark cs ++ splitAt mark ds := by
  induction cs with
  | nil => exact if_pos rfl
  | cons c cs ih =>
    rw [List.cons_append, splitAt, splitAt, ih]
    split
    · rfl
    · obtain ⟨part, parts, hparts⟩ := List.exists_cons_of_ne_nil (splitAt_ne_nil mark cs)
      rw [hparts]
      rfl

/-- A path. -/
structure Path where
  /-- Whether it starts at the root of all directories. -/
  absolute : Bool
  steps : List String
  /-- Whether it can only be the path of a directory. -/
  toDirectory : Bool
  deriving Repr, DecidableEq

namespace Path

/-- The step to the directory above. -/
abbrev up : String := ".."

/-- The path that a text stands for. -/
def ofText (text : String) : Path :=
  let parts := splitAt '/' text.toList
  { absolute := text.toList.head? == some '/'
    steps := (parts.filter fun p => p ≠ [] ∧ p ≠ ['.']).map String.ofList
    toDirectory := parts.getLast?.any fun p => p = [] ∨ p = ['.'] }

/-- **The text of a path inside a directory.**  An absolute path does not depend on it. -/
def join (directory name : String) : String :=
  if directory = "" ∨ name.toList.head? = some '/' then name
  else if directory.toList.getLast? = some '/' then directory ++ name
  else directory ++ "/" ++ name

/-- The last step, unless it leads up. -/
def fileName? (p : Path) : Option String := p.steps.getLast?.filter (· ≠ up)

/-- What follows the last full stop of a name, unless that is its first character. -/
def extensionOf (name : String) : Option String :=
  let parts := splitAt '.' name.toList
  if 1 < parts.length ∧ parts.dropLast ≠ [[]] then parts.getLast?.map String.ofList else none

/-- The extension of the file that a path leads to. -/
def extension? (p : Path) : Option String := p.fileName?.bind extensionOf

/-- Whether a file or directory can have a name: at most 255 bytes, none of them zero. -/
def isName (name : String) : Bool := name.utf8ByteSize ≤ 255 && !name.toList.contains '\x00'

end Path

end CatalogStats
