import CatalogStats.Catalog.Registry
import CatalogStats.Run.Setting
import CatalogStats.Storage.Basic

/-!
# Run/Config — what a run is to do

A configuration file in YAML names the snapshot and the directory for the results.  Variables of the
environment whose names start with `COLUMN_PROFILER_` come over its settings.
-/

namespace CatalogStats

/-- What a run is to do. -/
structure Config where
  /-- The path of the snapshot. -/
  catalogPath : String
  /-- The directory for the results. -/
  outputDirectory : String
  /-- Whether domain files are wanted. -/
  writeDomainFiles : Bool
  overrides : Overrides
  deriving Repr, DecidableEq

namespace Config

/-- Why there is no configuration. -/
inductive Fault where
  | noFile (path : String)
  | malformed
  deriving Repr, DecidableEq

/-- The wording of a fault. -/
def Fault.message : Fault → String
  | .noFile path => s!"Configuration file '{path}' does not exist."
  | .malformed => "Failed to parse configuration file."

/-! ## Variables -/

/-- What the names of variables start with. -/
def variableStart : String := "COLUMN_PROFILER_"

/-- The name of the setting of a variable: what follows the start, in small letters.  Case does not
matter. -/
def settingName? (name : String) : Option String :=
  let start := Text.upper variableStart.toList
  if start.isPrefixOf (Text.upper name.toList) then
    some (String.ofList ((name.toList.drop start.length).map Char.toLower))
  else none

/-- A setting inside tables, one for each name. -/
def nested (value : Setting) : List String → Setting
  | [] => value
  | name :: names => .table [(name, nested value names)]

/-- The settings of a variable.  Full stops in its name lead into tables. -/
def ofVariable? (name value : String) : Option Setting :=
  (settingName? name).map fun name =>
    nested (.ofVariable value) ((splitAt '.' name.toList).map String.ofList)

/-- Settings under those of the environment. -/
def underVariables (settings : Setting) (environment : List (String × String)) : Setting :=
  (environment.filterMap fun (name, value) => ofVariable? name value).foldl Setting.merge settings

/-! ## Fields -/

/-- A text. -/
def text? : Setting → Option String
  | .text s => some s
  | _ => none

/-- A truth value. -/
def truth? : Setting → Option Bool
  | .truth b => some b
  | _ => none

/-- A table of texts. -/
def texts? : Setting → Option Overrides
  | .table entries => entries.mapM fun (name, value) => (text? value).map (name, ·)
  | _ => none

/-- **The configuration in settings.**  Domain files are wanted unless it says otherwise. -/
def ofSetting? : Setting → Option Config
  | .table entries => do
    some {
      catalogPath := ← (← entries.lookup "catalog_path") |> text?
      outputDirectory := ← (← entries.lookup "output_dir") |> text?
      writeDomainFiles := ← orDefault truth? true (entries.lookup "write_domain_files")
      overrides := ← orDefault texts? [] (entries.lookup "type_overrides") }
  | _ => none

/-- The settings in the text of a file, which may be empty. -/
def settings? (text : String) : Option Setting :=
  match Yaml.ofText? text with
  | some (.mapping members) => some (.ofYaml (.mapping members))
  | some (.plain "") => some (.table [])
  | _ => none

/-- The configuration in the text of a file under the variables of an environment. -/
def ofText? (text : String) (environment : List (String × String)) : Option Config := do
  ofSetting? (underVariables (← settings? text) environment)

/-- **Loads the configuration from a file.** -/
def load {m : Type → Type} [Monad m] (S : Storage m) (path : String)
    (environment : List (String × String)) : m (Except Fault Config) := do
  if ← S.isFile path then
    match (← S.readText path).bind (ofText? · environment) with
    | some config => return .ok config
    | none => return .error .malformed
  else return .error (.noFile path)

end Config

end CatalogStats
