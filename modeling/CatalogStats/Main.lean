import CatalogStats.Run.Command

/-!
# Main — the command line on a disk

Files are those of the disk, and what a run tells goes to standard error.
-/

namespace CatalogStats

/-- The files of the disk. -/
def Storage.disk : Storage IO where
  isFile path := do
    try
      discard <| IO.FS.readBinFile path
      return true
    catch _ => return false
  readText path := do
    try return some (← IO.FS.readFile path)
    catch _ => return none
  makeDirectory path := do
    if path = "" then return true
    try
      IO.FS.createDirAll path
      return true
    catch _ => return false
  writeText path text := do
    try
      IO.FS.writeFile path text
      return true
    catch _ => return false

/-- The variables of the environment that have a setting, in capitals or in small letters. -/
def environment : IO (List (String × String)) := do
  let names := ["catalog_path", "output_dir", "write_domain_files", "type_overrides"]
  let spellings := names.flatMap fun name =>
    [Config.variableStart ++ name.map Char.toUpper, Config.variableStart ++ name]
  spellings.filterMapM fun name => do
    return (← IO.getEnv name).map (name, ·)

/-- The line that tells a warning. -/
def Run.Warning.line (w : Run.Warning) : String :=
  match w with
  | .countReplaced note => s!"{w.message} value={note.value}"
  | .skipped column fault =>
    let causes := ": ".intercalate fault.chain
    s!"{w.message} column={column.text}: {causes}"

/-- Tells how a run ended. -/
def report : Run.Ending → IO Unit
  | .noArgument => IO.eprintln "The path of the configuration file has to be given as an argument."
  | .noConfig fault => IO.eprintln fault.message
  | .finished outcome => do
    for w in outcome.warnings do
      IO.eprintln w.line
    match outcome.result with
    | .ok _ => IO.eprintln "Profiling complete."
    | .error fault => IO.eprintln fault.message

end CatalogStats

open CatalogStats in
/-- Runs the command and ends with its exit code. -/
def main (arguments : List String) : IO UInt32 := do
  let ending ← Run.command Storage.disk arguments (← environment)
  report ending
  return ending.exitCode.toUInt32
