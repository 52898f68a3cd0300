import CatalogStats.Storage.Path

/-!
# Storage/Basic — where files are kept

A storage answers the few questions that a profiling run asks about files.  Paths are texts, so that
messages can name them as they were given.
-/

namespace CatalogStats

/-- Access to files in a monad. -/
structure Storage (m : Type → Type) where
  /-- Whether a path leads to a file. -/
  isFile : String → m Bool
  /-- The text of a file, if it can be read as one. -/
  readText : String → m (Option String)
  /-- Makes a directory and those above it, and says whether it is there then. -/
  makeDirectory : String → m Bool
  /-- Writes a file over what was there, and says whether it could. -/
  writeText : String → String → m Bool

end CatalogStats
