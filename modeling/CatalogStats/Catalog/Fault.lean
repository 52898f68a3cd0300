import CatalogStats.Catalog.Column
import CatalogStats.Catalog.Literal
import CatalogStats.Histogram.Fault

/-!
# Catalog/Fault — why a column has no profile

A fault names the column and keeps the fault that caused it, so that both can be told.
-/

namespace CatalogStats.Column

/-- The statistics that hold texts of values. -/
inductive Statistic where
  | frequentValues
  | reportedMin
  | quantiles
  deriving Repr, DecidableEq

/-- How messages name a statistic. -/
def Statistic.name : Statistic → String
  | .frequentValues => "frequent values"
  | .reportedMin => "reported minimum"
  | .quantiles => "quantile boundaries"

/-- Why a column has no profile. -/
inductive Fault where
  | unsupported (column : QualifiedName) (typeName : String)
  | unregistered (column : QualifiedName)
  | noMinimum (column : QualifiedName)
  | unreadable (column : QualifiedName) (statistic : Statistic) (cause : Literal.Fault)
  | inconsistent (column : QualifiedName) (kind : Kind) (cause : Histogram.Fault kind.Value)

namespace Fault

/-- The class of a fault. -/
def kind : Fault → FaultClass
  | inconsistent _ _ cause => cause.kind
  | _ => .input

/-- The wording of a fault, without its cause. -/
def message : Fault → String
  | unsupported column typeName => s!"Column '{column.text}' has unsupported type '{typeName}'."
  | unregistered column => s!"Column '{column.text}' has no registered domain."
  | noMinimum column =>
    s!"Column '{column.text}' has quantile statistics but no reported minimum."
  | unreadable column statistic _ => s!"Failed to parse {statistic.name} of column '{column.text}'."
  | inconsistent column _ _ => s!"Failed to build histogram for column '{column.text}'."

/-- The wordings of a fault and of its causes, outermost first. -/
def chain (f : Fault) : List String :=
  match f with
  | unreadable _ _ cause => [f.message, cause.message]
  | inconsistent _ k (.neighbour cause) =>
    [f.message, Histogram.Fault.message k.domain (.neighbour cause), cause.message k.domain]
  | inconsistent _ k cause => [f.message, cause.message k.domain]
  | _ => [f.message]

end Fault

end CatalogStats.Column
