import CatalogStats.Run.Basic

/-!
# Run/Command — the command line

The only argument is the path of the configuration file.
-/

namespace CatalogStats.Run

/-- How the command ended. -/
inductive Ending where
  /-- The argument is missing. -/
  | noArgument
  | noConfig (fault : Config.Fault)
  | finished (outcome : Outcome)

/-- Whether everything went well. -/
def Ending.succeeded : Ending → Bool
  | .finished outcome => outcome.result.isOk
  | _ => false

/-- Zero if everything went well, one if not. -/
def Ending.exitCode (e : Ending) : Nat := if e.succeeded then 0 else 1

/-- **Runs the command** with its arguments and the variables of its environment. -/
def command {m : Type → Type} [Monad m] (S : Storage m) (arguments : List String)
    (environment : List (String × String)) : m Ending := do
  match arguments with
  | [] => return .noArgument
  | path :: _ =>
    match ← Config.load S path environment with
    | .error fault => return .noConfig fault
    | .ok config => return .finished (← perform S config)

end CatalogStats.Run
