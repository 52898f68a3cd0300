import CatalogStats.Number.Shortest
import CatalogStats.Profile.Basic
import CatalogStats.Profile.Field

/-!
# Profile/Distribution — the files of a profile

The distribution file has three lines of figures, then a line for each exact value and a line for
each range.  The domain file of a column whose values are all known lists the exact values alone.
-/

namespace CatalogStats.Profile

/-- Fields with vertical bars between them, ended by a line break. -/
def line (fields : List (List Char)) : List Char :=
  (fields.intersperse [Field.separator]).flatten ++ ['\n']

/-- A figure under its name. -/
def header (name : String) (figure : List Char) : List Char :=
  name.toList ++ '=' :: figure ++ ['\n']

/-- The line of an exact value. -/
def exactLine (p : Profile) (b : Bin) : List Char :=
  line [Field.encode b.lower.toList, (p.share b.frequency).chars]

/-- The line of a range. -/
def rangeLine (p : Profile) (b : Bin) : List Char :=
  line [Field.encode b.lower.toList, Field.encode b.upper.toList, (p.share b.frequency).chars]

/-- The lines of all exact values. -/
def exactLines (p : Profile) : List Char := p.exactBins.flatMap p.exactLine

/-- The lines of all ranges. -/
def rangeLines (p : Profile) : List Char := p.rangeBins.flatMap p.rangeLine

/-- The three lines of figures. -/
def headers (p : Profile) : List Char :=
  header "numberOfExactValues" (Numeral.digits p.exactBins.length)
    ++ header "numberOfBins" (Numeral.digits p.rangeBins.length)
    ++ header "nullProbability" p.nullShare.chars

/-- **The text of the distribution file.** -/
def distribution (p : Profile) : String :=
  String.ofList (p.headers ++ p.exactLines ++ p.rangeLines)

/-- **The text of the domain file**, if every distinct value is known. -/
def domainFile? (p : Profile) : Option String :=
  if p.isEnumerated then some (String.ofList p.exactLines) else none

end CatalogStats.Profile
