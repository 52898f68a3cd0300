import CatalogStats.Format.Shape

/-!
# Format/Yaml — documents in YAML and what their scalars mean

A scalar in quotes is a text.  A plain scalar may also be a number, a truth value, or stand for
nothing, as the reader of a field decides.  A place left empty holds the empty plain scalar.
-/

namespace CatalogStats

/-- A document in YAML. -/
inductive Yaml where
  | plain (text : String)
  | quoted (text : String)
  | list (items : List Yaml)
  | mapping (members : List (String × Yaml))

namespace Yaml

/-- What stands in an empty place. -/
def empty : Yaml := plain ""

/-! ## Plain scalars -/

/-- The scalars that stand for nothing. -/
def isNull (s : String) : Bool := s ∈ ["", "~", "null", "Null", "NULL"]

/-- The truth value of a scalar. -/
def truth? (s : String) : Option Bool :=
  if s ∈ ["true", "True", "TRUE"] then some true
  else if s ∈ ["false", "False", "FALSE"] then some false
  else none

/-- Digits with a zero in front are no number. -/
def isPadded (cs : List Char) : Bool :=
  cs.head? == some '0' && cs.length > 1 && cs.all Char.isDigit

/-- A number without a sign, with its base in front unless it is ten. -/
def magnitude? : List Char → Option Nat
  | '0' :: 'x' :: cs => Hexadecimal.number? 16 cs
  | '0' :: 'o' :: cs => Hexadecimal.number? 8 cs
  | '0' :: 'b' :: cs => Hexadecimal.number? 2 cs
  | cs => if isPadded cs then none else Hexadecimal.number? 10 cs

/-- The text after a sign, if it starts with one. -/
def afterSign : List Char → List Char
  | '-' :: cs => cs
  | '+' :: cs => cs
  | cs => cs

/-- A decimal number without a sign: digits and a point, and perhaps an exponent. -/
def isFraction (cs : List Char) : Bool :=
  let whole := cs.takeWhile Char.isDigit
  let (fraction, rest) :=
    match cs.dropWhile Char.isDigit with
    | '.' :: rest => (rest.takeWhile Char.isDigit, rest.dropWhile Char.isDigit)
    | rest => ([], rest)
  let digits (ds : List Char) : Bool := !ds.isEmpty && ds.all Char.isDigit
  let exponent : Bool :=
    match rest with
    | [] => true
    | c :: rest => (c == 'e' || c == 'E') && digits (afterSign rest)
  !(whole.isEmpty && fraction.isEmpty) && exponent

/-- The scalars that stand for an infinite or an undefined number. -/
def isUnbounded (s : String) : Bool :=
  s ∈ [".inf", ".Inf", ".INF", "+.inf", "+.Inf", "+.INF", "-.inf", "-.Inf", "-.INF", ".nan", ".NaN",
    ".NAN"]

/-- Whether a scalar is a number. -/
def isNumber (s : String) : Bool :=
  let cs := afterSign s.toList
  (magnitude? cs).isSome || (!isPadded cs && isFraction cs) || isUnbounded s

/-! ## Documents -/

/-- A natural number of at most `limit`, with or without a plus sign. -/
def natural? (limit : Nat) : Yaml → Option Nat
  | plain s =>
    let cs := match s.toList with
      | '+' :: cs => cs
      | cs => cs
    (magnitude? cs).filter (· ≤ limit)
  | _ => none

/-- **Records in YAML** are mappings.  An empty place is a list without items or a record without
fields, and every scalar is a text. -/
def shape : Shape Yaml where
  text?
    | plain s => some s
    | quoted s => some s
    | _ => none
  natural? := natural?
  isAbsent
    | plain s => isNull s
    | _ => false
  list?
    | list items => some items
    | plain "" => some []
    | _ => none
  fields? names
    | mapping members => names.mapM (member? members)
    | plain "" => some (names.map fun _ => none)
    | _ => none

end Yaml

end CatalogStats
