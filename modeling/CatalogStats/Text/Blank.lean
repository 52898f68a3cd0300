/-!
# Text/Blank — white space at the ends of a text

The characters with the Unicode property `White_Space`, and the text left when they are taken off
both ends.
-/

namespace CatalogStats.Text

/-- The characters with the Unicode property `White_Space`. -/
def isBlank (c : Char) : Bool :=
  let n := c.toNat
  (9 ≤ n && n ≤ 13) || n == 0x20 || n == 0x85 || n == 0xA0 || n == 0x1680
    || (0x2000 ≤ n && n ≤ 0x200A) || n == 0x2028 || n == 0x2029 || n == 0x202F || n == 0x205F
    || n == 0x3000

/-- The text without its leading blanks. -/
def trimStart (cs : List Char) : List Char := cs.dropWhile isBlank

/-- The text without its trailing blanks. -/
def trimEnd (cs : List Char) : List Char := (trimStart cs.reverse).reverse

/-- **The text without the blanks at its two ends.** -/
def trim (cs : List Char) : List Char := trimEnd (trimStart cs)

/-- A letter of the ASCII alphabet becomes its capital; every other character stays. -/
def upper (cs : List Char) : List Char := cs.map Char.toUpper

/-- A text that starts with a visible character loses nothing at its start. -/
theorem trimStart_cons_of_not_blank {c : Char} (cs : List Char) (h : isBlank c = false) :
    trimStart (c :: cs) = c :: cs := by
  simp [trimStart, h]

end CatalogStats.Text
