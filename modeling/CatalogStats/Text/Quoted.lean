/-!
# Text/Quoted — catalog quoting

A catalog puts a text between single quotes and writes each quote inside it twice.  Reading removes
the quotes where they are and is lenient about everything else: a text without quotes at both ends
stands for itself.
-/

namespace CatalogStats.Quoted

/-- The single quote. -/
abbrev mark : Char := '\x27'

/-- Writes every quote twice. -/
def double : List Char → List Char
  | [] => []
  | c :: cs => if c = mark then mark :: mark :: double cs else c :: double cs

/-- **The quoted form of a text.** -/
def encode (cs : List Char) : List Char := mark :: double cs ++ [mark]

/-- Writes one quote for every two that stand together, from left to right. -/
def undouble : List Char → List Char
  | '\x27' :: '\x27' :: cs => mark :: undouble cs
  | c :: cs => c :: undouble cs
  | [] => []

/-- What stands between a quote at the start and a quote at the end, if both are there. -/
def inner? : List Char → Option (List Char)
  | '\x27' :: cs => if cs.getLast? = some mark then some cs.dropLast else none
  | _ => none

/-- **Removes the quoting of a text**, if there is any. -/
def decode (cs : List Char) : List Char :=
  match inner? cs with
  | some body => undouble body
  | none => cs

theorem undouble_double (cs : List Char) : undouble (double cs) = cs := by
  induction cs with
  | nil => rfl
  | cons c cs ih =>
    unfold double
    split
    case isTrue h => simp [undouble, ih, h]
    case isFalse h =>
      rw [undouble, ih]
      rintro _ rfl
      exact absurd rfl h

theorem inner?_encode (cs : List Char) : inner? (encode cs) = some (double cs) := by
  simp [encode, inner?]

/-- **Reading undoes quoting.** -/
theorem decode_encode (cs : List Char) : decode (encode cs) = cs := by
  rw [decode, inner?_encode]
  exact undouble_double cs

end CatalogStats.Quoted
