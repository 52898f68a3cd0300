import CatalogStats.Calendar.Date
import CatalogStats.Domain.Grid
import CatalogStats.Domain.Integer
import CatalogStats.Domain.Phrase

/-!
# Domain/Kind — the domains a column can have

A kind names one of the five domains; its values and their domain follow from it.
-/

namespace CatalogStats

/-- The kinds of columns. -/
inductive Kind where
  | integer
  | decimal (scale : Scale)
  | date
  | character
  | string
  deriving DecidableEq, Repr

namespace Kind

/-- The values of a kind of column. -/
abbrev Value : Kind → Type
  | integer => Whole
  | decimal _ => Decimal
  | date => Date
  | character => Char
  | string => String

/-- **The domain of a kind of column.** -/
def domain : (k : Kind) → Domain k.Value
  | integer => Domain.integer
  | decimal scale => Domain.decimal scale
  | date => Domain.date
  | character => Domain.character
  | string => Domain.phrase

/-- The name of the domain of a kind. -/
def name (k : Kind) : String := k.domain.name

/-- Equality of values as they are written. -/
instance (k : Kind) : DecidableEq k.Value :=
  match k with
  | integer => inferInstanceAs (DecidableEq Whole)
  | decimal _ => inferInstanceAs (DecidableEq Decimal)
  | date => inferInstanceAs (DecidableEq Date)
  | character => inferInstanceAs (DecidableEq Char)
  | string => inferInstanceAs (DecidableEq String)

/-- Brings a value to the form in which the domain writes it: decimals to their scale. -/
def canonical : (k : Kind) → k.Value → k.Value
  | integer, v => v
  | decimal scale, v => v.atScale scale
  | date, v => v
  | character, v => v
  | string, v => v

end Kind

end CatalogStats
