import CatalogStats.Domain.Character

/-!
# Domain/Phrase — texts of any length

Texts are ordered by code point.  A neighbour differs in the last character only, so between two
neighbours there may lie other texts, and the span is an approximation: the distances of the code
points at each place, the shorter text filled up with blanks.
-/

namespace CatalogStats

namespace Phrase

/-- Puts the result of a step in the place of the last character. -/
def replaceLast (step : Char → Option Char) : List Char → Option (List Char)
  | [] => none
  | [c] => (step c).map ([·])
  | c :: cs => (replaceLast step cs).map (c :: ·)

/-- The text with the next last character; the empty text is followed by the least character. -/
def next? (s : String) : Option String :=
  match s.toList with
  | [] => some (String.ofList ['\x00'])
  | cs => (replaceLast Character.next? cs).map String.ofList

/-- The text with the previous last character. -/
def previous? (s : String) : Option String :=
  (replaceLast Character.previous? s.toList).map String.ofList

/-- The distance of two code points. -/
def gap (a b : Char) : Nat := ((a.toNat : Int) - b.toNat).natAbs

/-- The sum of the distances at every place, a missing character counting as a blank. -/
def distance : List Char → List Char → Nat
  | [], [] => 0
  | a :: as, [] => gap a ' ' + distance as []
  | [], b :: bs => gap ' ' b + distance [] bs
  | a :: as, b :: bs => gap a b + distance as bs

/-- A text stands to the one with another last character as the two characters do. -/
theorem compare_replaceLast {step : Char → Option Char} {o : Ordering} (ho : o ≠ .eq)
    (hstep : ∀ {c d}, step c = some d → compare c d = o) {cs ds : List Char}
    (h : replaceLast step cs = some ds) : compare cs ds = o := by
  induction cs generalizing ds with
  | nil => cases h
  | cons c cs ih =>
    cases cs with
    | nil =>
      obtain ⟨d, hd, rfl⟩ := Option.map_eq_some_iff.1 h
      rw [List.compare_cons_cons, hstep hd]
      cases o <;> rfl
    | cons c' cs =>
      obtain ⟨es, hes, rfl⟩ := Option.map_eq_some_iff.1 h
      rw [List.compare_cons_cons, Std.ReflOrd.compare_self]
      exact ih hes

/-- The following text is greater. -/
theorem compare_of_next? {s t : String} (h : next? s = some t) :
    compare s.toList t.toList = .lt := by
  unfold next? at h
  split at h
  case h_1 hs =>
    rw [← Option.some.inj h, hs, String.toList_ofList]
    rfl
  case h_2 hs =>
    obtain ⟨ds, hds, rfl⟩ := Option.map_eq_some_iff.1 h
    rw [String.toList_ofList]
    exact compare_replaceLast (by decide) Character.compare_of_next? hds

/-- The preceding text is smaller. -/
theorem compare_of_previous? {s t : String} (h : previous? s = some t) :
    compare s.toList t.toList = .gt := by
  obtain ⟨ds, hds, rfl⟩ := Option.map_eq_some_iff.1 h
  rw [String.toList_ofList]
  exact compare_replaceLast (by decide) Character.compare_of_previous? hds

end Phrase

/-- **The domain of texts**, ordered by code point. -/
def Domain.phrase : Domain String where
  name := "string"
  text := id
  compare := compareOn String.toList
  next? := Phrase.next?
  previous? := Phrase.previous?
  span a b := Phrase.distance a.toList b.toList + 1
  trans := inferInstance

end CatalogStats
