import CatalogStats.Number.Binary64
import CatalogStats.Text.Numeral

/-!
# Number/Shortest — the fewest digits that read back

A number of double precision is the nearest one to every number of an interval around it, ends
included when its significand is even.  The shortest text takes the coarsest decimal grid that has a
point in this interval, and on that grid the point nearest to the value.
-/

namespace CatalogStats.Binary64

/-- The numbers that round to a value, in quarters of its last place. -/
structure Neighbourhood where
  low : Nat
  value : Nat
  high : Nat
  /-- Quarters are counted in units of `numScale / denScale`. -/
  numScale : Nat
  denScale : Nat
  /-- Whether the two ends belong to it. -/
  closed : Bool

/-- The interval of a number.  Below a power of two the numbers lie twice as dense. -/
def neighbourhood (x : Binary64) : Neighbourhood :=
  let m := 4 * x.significand
  let e := x.exponent - 2
  { low := if x.significand = 4503599627370496 then m - 1 else m - 2
    value := m
    high := m + 2
    numScale := twoTo e.toNat
    denScale := twoTo (-e).toNat
    closed := x.significand % 2 = 0 }

/-- Powers of ten with a whole exponent, as a ratio. -/
def powerOfTen (g : Int) : Nat × Nat := (tenTo g.toNat, tenTo (-g).toNat)

/-- Whether `c · 10 ^ g` lies in the interval. -/
def Neighbourhood.holds (i : Neighbourhood) (c : Nat) (g : Int) : Bool :=
  let (p, q) := powerOfTen g
  let point := c * p * i.denScale
  let low := i.low * i.numScale * q
  let high := i.high * i.numScale * q
  if i.closed then low ≤ point && point ≤ high else low < point && point < high

/-- The exponent of the leading decimal digit of a positive ratio. -/
def leadingPlace (num den : Nat) : Int :=
  if den ≤ num then ((Numeral.digits (num / den)).length : Int) - 1
  else -((Numeral.digits ((den + num - 1) / num - 1)).length : Int)

/-- The point of the grid `10 ^ g` that stands for the value, if one does: of the two neighbours of
the value that lie in the interval, the nearer, and halfway between them the upper. -/
def Neighbourhood.pointOn (i : Neighbourhood) (g : Int) : Option Nat :=
  let (p, q) := powerOfTen g
  let num := i.value * i.numScale * q
  let den := i.denScale * p
  let c := num / den
  match i.holds c g, i.holds (c + 1) g with
  | true, false => some c
  | false, true => some (c + 1)
  | false, false => none
  | true, true => if 2 * (num % den) < den then some c else some (c + 1)

/-- The first grid from `10 ^ g` downward that has a point, with that point. -/
def Neighbourhood.search (i : Neighbourhood) : Nat → Int → Nat × Int
  | 0, g => ((i.pointOn g).getD 0, g)
  | fuel + 1, g =>
    match i.pointOn g with
    | some c => (c, g)
    | none => i.search fuel (g - 1)

/-- Takes the trailing zeros off a decimal. -/
def stripZeros : Nat → Nat → Int → Nat × Int
  | 0, c, g => (c, g)
  | fuel + 1, c, g => if c ≠ 0 ∧ c % 10 = 0 then stripZeros fuel (c / 10) (g + 1) else (c, g)

/-- **The shortest decimal `c · 10 ^ g` that reads back as the number.**  Seventeen digits are
always enough. -/
def shortest (x : Binary64) : Nat × Int :=
  let i := x.neighbourhood
  let (num, den) := x.toRatio
  let (c, g) := i.search 17 (leadingPlace num den)
  stripZeros 20 c g

/-- The decimal `c · 10 ^ g` written out without an exponent. -/
def plain (c : Nat) (g : Int) : List Char :=
  if 0 ≤ g then Numeral.digits c ++ List.replicate g.toNat '0'
  else
    let places := (-g).toNat
    let ds := Numeral.padded (places + 1) c
    let whole := ds.length - places
    ds.take whole ++ '.' :: ds.drop whole

/-- **The text of a number**: its shortest decimal, never with an exponent. -/
def chars (x : Binary64) : List Char :=
  if x.significand = 0 then ['0']
  else
    let (c, g) := x.shortest
    plain c g

/-- The text of a number as a string. -/
def text (x : Binary64) : String := String.ofList x.chars

end CatalogStats.Binary64
