import CatalogStats.Format.JsonReading
import CatalogStats.Proofs.Text.Numerals

/-!
# Proofs/Format/JsonRoundTrip — documents are read back from their compact text

Every part of a document is read back in front of what may follow it: a string character by
character (`stringBody_escaped`), a natural number up to the first character that is no digit
(`numberLiteral_digits`), lists and objects part by part (`items_charsOfItems`,
`members_charsOfMembers`).  The length of a text is always fuel enough for it.
-/

namespace CatalogStats.Json

variable {c : Char} {cs rest : List Char} {fuel n : ℕ} {j item : Json} {others : List Json}

/-! ## Strings -/

/-- A control character is read back from its number. -/
theorem escape_unit (h : n < 32) (rest : List Char) :
    escape ('u' :: '0' :: '0' :: Hexadecimal.digit (n / 16) :: Hexadecimal.digit (n % 16) :: rest) =
      some (some (Char.ofNat n), rest) := by
  have hnumber : ∀ n < 32, Hexadecimal.number? 16
      ['0', '0', Hexadecimal.digit (n / 16), Hexadecimal.digit (n % 16)] = some n := by decide
  have hhigh : isHigh n = false := by simp [isHigh]; omega
  have hlow : isLow n = false := by simp [isLow]; omega
  simp [escape, hexUnit, hnumber n h, hhigh, hlow]

/-- **How a character is written inside a string**: by an escape that stands for it, or as it is. -/
theorem escaped_cases (c : Char) :
    (∃ e, escaped c = '\\' :: e ∧ ∀ rest, escape (e ++ rest) = some (some c, rest)) ∨
    (escaped c = [c] ∧ c ≠ '"' ∧ c ≠ '\\' ∧ ¬ c.toNat < 32) := by
  unfold escaped
  split
  case h_8 _ hquote hbackslash _ _ _ _ _ =>
    by_cases hc : c.toNat < 32
    · refine .inl ⟨_, if_pos hc, fun rest => ?_⟩
      have hread := escape_unit hc rest
      rwa [Char.ofNat_toNat] at hread
    · exact .inr ⟨if_neg hc, hquote, hbackslash, hc⟩
  all_goals exact .inl ⟨_, rfl, fun rest => rfl⟩

/-- A character is read back in front of the rest of a string. -/
theorem stringBody_escaped (c : Char) (fuel : ℕ) (cs : List Char) :
    stringBody (fuel + 1) (escaped c ++ cs) =
      (stringBody fuel cs).map fun read => (read.1.map (c :: ·), read.2) := by
  rcases escaped_cases c with ⟨e, he, hread⟩ | ⟨he, hquote, hbackslash, hcontrol⟩
  · rw [he, List.cons_append, stringBody, if_neg (by decide), if_pos rfl, hread, Option.map_eq_bind]
    rfl
  · rw [he, List.singleton_append, stringBody, if_neg hquote, if_neg hbackslash, if_neg hcontrol,
      Option.map_eq_bind]
    rfl

/-- **A string is read back** up to the quote that ends it. -/
theorem stringBody_flatMap_escaped {s : List Char} (h : (s.flatMap escaped).length < fuel) :
    stringBody fuel (s.flatMap escaped ++ '"' :: rest) = some (some s, rest) := by
  induction s generalizing fuel with
  | nil =>
    obtain ⟨fuel, rfl⟩ := Nat.exists_eq_succ_of_ne_zero (Nat.ne_of_gt (Nat.zero_lt_of_lt h))
    rfl
  | cons c s ih =>
    obtain ⟨fuel, rfl⟩ := Nat.exists_eq_succ_of_ne_zero (Nat.ne_of_gt (Nat.zero_lt_of_lt h))
    have hpos : 0 < (escaped c).length := by
      rcases escaped_cases c with ⟨e, he, _⟩ | ⟨he, _⟩ <;> simp [he]
    rw [List.flatMap_cons, List.length_append] at h
    rw [List.flatMap_cons, List.append_assoc, stringBody_escaped, ih (by omega)]
    rfl

/-- The text of a string, after the quote that begins it. -/
theorem quoted_append (s : String) (rest : List Char) :
    quoted s ++ rest = '"' :: (s.toList.flatMap escaped ++ '"' :: rest) := by
  rw [quoted, List.append_assoc, List.singleton_append, List.cons_append]

theorem stringBody_quoted (s : String) (rest : List Char) :
    stringBody ((s.toList.flatMap escaped ++ '"' :: rest).length + 1)
      (s.toList.flatMap escaped ++ '"' :: rest) = some (some s.toList, rest) := by
  refine stringBody_flatMap_escaped ?_
  rw [List.length_append]
  omega

/-! ## Numbers -/

/-- What can follow a part of a document: nothing, a comma or the end of a list or an object. -/
def Ends (rest : List Char) : Prop := ∀ c ∈ rest.head?, c = ',' ∨ c = ']' ∨ c = '}'

theorem ends_cons (h : c = ',' ∨ c = ']' ∨ c = '}') : Ends (c :: cs) := by
  rintro _ ⟨⟩
  exact h

theorem Ends.stops (h : Ends rest) : Numeral.Stops rest := by
  intro c hc
  rcases h c hc with rfl | rfl | rfl <;> decide

/-- Nothing that can follow a number belongs to it. -/
theorem Ends.fraction_exponent (h : Ends rest) :
    fractionPart rest = some ([], rest) ∧ exponentPart rest = some ([], rest) := by
  cases rest with
  | nil => exact ⟨rfl, rfl⟩
  | cons c cs => rcases h c rfl with rfl | rfl | rfl <;> exact ⟨rfl, rfl⟩

theorem digitRun_append {ds : List Char} (hds : ∀ c ∈ ds, c.isDigit = true) (hne : ds ≠ [])
    (h : Numeral.Stops rest) : digitRun (ds ++ rest) = some (ds, rest) := by
  obtain ⟨htake, hdrop⟩ := h.takeWhile_dropWhile
  obtain ⟨c, ds, rfl⟩ := List.exists_cons_of_ne_nil hne
  rw [digitRun, List.takeWhile_append_of_pos hds, htake, List.append_nil,
    List.dropWhile_append_of_pos hds, hdrop]

/-- The whole part of a number is all its digits. -/
theorem wholePart_digits (n : ℕ) (h : Numeral.Stops rest) :
    wholePart (Numeral.digits n ++ rest) = some (Numeral.digits n, rest) := by
  rcases Nat.eq_zero_or_pos n with rfl | hpos
  · rfl
  · have hhead : ∀ c ∈ (Numeral.digits n).head?, c ≠ '0' :=
      Numeral.head_digitsOnto_ne n.lt_succ_self hpos
    have hread := digitRun_append Numeral.isDigit_of_mem_digits (Numeral.digits_ne_nil n) h
    rw [wholePart]
    · exact hread
    · intro cs heq
      obtain ⟨c, ds, hds, _⟩ := Numeral.exists_digits_eq_cons n
      rw [hds, List.cons_append] at heq
      exact hhead c (hds ▸ rfl) (List.cons.inj heq).1

/-- **A natural number is read back** in front of what can follow it. -/
theorem numberLiteral_digits (n : ℕ) (h : Ends rest) :
    numberLiteral (Numeral.digits n ++ rest) = some (Numeral.digits n, rest) := by
  have hread : unsignedNumber (Numeral.digits n ++ rest) = some (Numeral.digits n, rest) := by
    simp [unsignedNumber, wholePart_digits n h.stops, h.fraction_exponent]
  obtain ⟨c, ds, hds, hc⟩ := Numeral.exists_digits_eq_cons n
  rw [numberLiteral]
  · exact hread
  · intro cs heq
    rw [hds, List.cons_append] at heq
    rw [(List.cons.inj heq).1] at hc
    cases hc

/-! ## Documents -/

/-- A document that its text tells fully: the numbers are natural, and the strings have no half of a
character. -/
inductive Legible : Json → Prop where
  | null : Legible .null
  | bool (value : Bool) : Legible (.bool value)
  | ofNat (n : ℕ) : Legible (.ofNat n)
  | string (text : String) : Legible (.string text)
  | list {items : List Json} (h : ∀ item ∈ items, Legible item) : Legible (.list items)
  | object {members : List (String × Json)} (h : ∀ m ∈ members, Legible m.2) :
    Legible (.object members)

/-- What the text of a document starts with: no blank and nothing that ends a list. -/
def Opens (c : Char) : Prop := c ∉ [' ', '\n', '\r', '\t', ']']

instance (c : Char) : Decidable (Opens c) := inferInstanceAs (Decidable (_ ∉ _))

theorem skipBlanks_cons (h : Opens c) (cs : List Char) : skipBlanks (c :: cs) = c :: cs := by
  simp only [Opens, List.mem_cons, not_or] at h
  simp [skipBlanks, h]

theorem opens_of_isDigit (h : c.isDigit = true) : Opens c := by
  intro hmem
  simp only [List.mem_cons, List.not_mem_nil, or_false] at hmem
  rcases hmem with rfl | rfl | rfl | rfl | rfl <;> cases h

/-- The text of a document starts with a character of its own. -/
theorem Legible.exists_cons (h : Legible j) : ∃ c cs, j.chars = c :: cs ∧ Opens c := by
  cases h with
  | null => exact ⟨'n', _, rfl, by decide⟩
  | bool value => cases value <;> exact ⟨_, _, rfl, by decide⟩
  | ofNat n =>
    obtain ⟨c, ds, hds, hc⟩ := Numeral.exists_digits_eq_cons n
    refine ⟨c, ds, ?_, opens_of_isDigit hc⟩
    rw [Json.ofNat, chars, Numeral.text, String.toList_ofList, hds]
  | string text => exact ⟨'"', _, rfl, by decide⟩
  | @list items _ => cases items <;> exact ⟨'[', _, rfl, by decide⟩
  | @object members _ => cases members <;> exact ⟨'{', _, rfl, by decide⟩

/-! ## Reading the parts -/

theorem value_quoted (s : String) (rest : List Char) :
    value (fuel + 1) (quoted s ++ rest) = some (string s, rest) := by
  rw [quoted_append, value, skipBlanks_cons (by decide)]
  simp only [stringBody_quoted, Option.bind_eq_bind, Option.bind_some, ofBody, String.ofList_toList]

theorem value_ofNat (n : ℕ) (h : Ends rest) :
    value (fuel + 1) ((ofNat n).chars ++ rest) = some (ofNat n, rest) := by
  have hread := numberLiteral_digits n h
  obtain ⟨c, ds, hds, hc⟩ := Numeral.exists_digits_eq_cons n
  have hne : ∀ d, d.isDigit = false → c ≠ d := by
    rintro d hd rfl
    rw [hd] at hc
    cases hc
  rw [ofNat, chars, Numeral.text, String.toList_ofList]
  rw [hds, List.cons_append] at hread ⊢
  rw [value, skipBlanks_cons (opens_of_isDigit hc)]
  split
  case h_7 =>
    rw [hread]
    rfl
  -- no other form of a document starts with a digit
  all_goals
    rename_i heq
    exact absurd (List.cons.inj heq).1 (hne _ (by decide))

/-- A list that starts with no bracket has an item. -/
theorem value_list (h : Opens c) (cs : List Char) :
    value (fuel + 1) ('[' :: c :: cs) =
      (items fuel (c :: cs)).map fun read => (list read.1, read.2) := by
  rw [value, skipBlanks_cons (by decide)]
  simp only [skipBlanks_cons h]
  split
  case h_1 heq =>
    rw [(List.cons.inj heq).1] at h
    exact absurd h (by decide)
  case h_2 =>
    rw [Option.map_eq_bind]
    rfl

/-- An object that starts with a name has a member. -/
theorem value_object (cs : List Char) :
    value (fuel + 1) ('{' :: '"' :: cs) =
      (members fuel ('"' :: cs)).map fun read => (ofMembers read.1, read.2) := by
  rw [value, skipBlanks_cons (by decide)]
  simp only [skipBlanks_cons (show Opens '"' by decide)]
  rw [Option.map_eq_bind]
  rfl

theorem items_comma (h : value fuel cs = some (item, ',' :: rest)) :
    items (fuel + 1) cs = (items fuel rest).map fun read => (item :: read.1, read.2) := by
  rw [items, h, Option.map_eq_bind]
  rfl

theorem items_bracket (h : value fuel cs = some (item, ']' :: rest)) :
    items (fuel + 1) cs = some ([item], rest) := by
  rw [items, h]
  rfl

theorem members_comma {name : String} (h : value fuel cs = some (item, ',' :: rest)) :
    members (fuel + 1) (quoted name ++ ':' :: cs) =
      (members fuel rest).map fun read => (read.1.map ((name, item) :: ·), read.2) := by
  rw [quoted_append, members, skipBlanks_cons (by decide)]
  simp only [stringBody_quoted, Option.bind_eq_bind, Option.bind_some, Option.map_some,
    skipBlanks_cons (show Opens ':' by decide), h, skipBlanks_cons (show Opens ',' by decide),
    String.ofList_toList]
  rw [Option.map_eq_bind]
  rfl

theorem members_brace {name : String} (h : value fuel cs = some (item, '}' :: rest)) :
    members (fuel + 1) (quoted name ++ ':' :: cs) = some (some [(name, item)], rest) := by
  rw [quoted_append, members, skipBlanks_cons (by decide)]
  simp only [stringBody_quoted, Option.bind_eq_bind, Option.bind_some, Option.map_some,
    skipBlanks_cons (show Opens ':' by decide), h, skipBlanks_cons (show Opens '}' by decide),
    String.ofList_toList]

/-! ## Reading documents -/

/-- **A document is read back** in front of what can follow it, if there is fuel for its text. -/
def ReadsBack (j : Json) : Prop :=
  ∀ fuel rest, j.chars.length ≤ fuel → Ends rest → value fuel (j.chars ++ rest) = some (j, rest)

/-- Items that are read back make a list that is read back up to its bracket. -/
theorem items_charsOfItems (hitem : ReadsBack item) (hothers : ∀ j ∈ others, ReadsBack j)
    (hfuel : (item.chars ++ charsOfItems others).length ≤ fuel) (rest : List Char) :
    items fuel (item.chars ++ (charsOfItems others ++ rest)) = some (item :: others, rest) := by
  induction others generalizing item fuel with
  | nil =>
    rw [charsOfItems, List.length_append, List.length_singleton] at hfuel
    obtain ⟨fuel, rfl⟩ := Nat.exists_eq_succ_of_ne_zero (Nat.ne_of_gt (Nat.zero_lt_of_lt hfuel))
    exact items_bracket (hitem fuel _ (Nat.le_of_succ_le_succ hfuel) (ends_cons (by decide)))
  | cons next others ih =>
    -- the comma takes a character, so a step less is enough for what follows it
    obtain ⟨hnext, hothers⟩ := List.forall_mem_cons.1 hothers
    simp only [charsOfItems, List.length_append, List.length_cons] at hfuel ih
    obtain ⟨fuel, rfl⟩ := Nat.exists_eq_succ_of_ne_zero (n := fuel) (by omega)
    rw [charsOfItems, List.append_assoc, List.cons_append,
      items_comma (hitem fuel _ (by omega) (ends_cons (by decide))),
      ih hnext hothers (by omega)]
    rfl

/-- …and members an object, up to its brace. -/
theorem members_charsOfMembers (name : String) {others : List (String × Json)}
    (hitem : ReadsBack item) (hothers : ∀ m ∈ others, ReadsBack m.2)
    (hfuel : (quoted name ++ ':' :: item.chars ++ charsOfMembers others).length ≤ fuel)
    (rest : List Char) :
    members fuel (quoted name ++ ':' :: (item.chars ++ (charsOfMembers others ++ rest))) =
      some (some ((name, item) :: others), rest) := by
  induction others generalizing name item fuel with
  | nil =>
    simp only [charsOfMembers, List.length_append, List.length_cons] at hfuel
    obtain ⟨fuel, rfl⟩ := Nat.exists_eq_succ_of_ne_zero (n := fuel) (by omega)
    exact members_brace (hitem fuel _ (by omega) (ends_cons (by decide)))
  | cons next others ih =>
    obtain ⟨hnext, hothers⟩ := List.forall_mem_cons.1 hothers
    simp only [charsOfMembers, List.length_append, List.length_cons] at hfuel ih
    obtain ⟨fuel, rfl⟩ := Nat.exists_eq_succ_of_ne_zero (n := fuel) (by omega)
    have htail : members fuel _ = _ := ih next.1 hnext hothers (by omega)
    rw [charsOfMembers, List.append_assoc, List.append_assoc, List.cons_append, List.cons_append,
      members_comma (hitem fuel _ (by omega) (ends_cons (by decide))), htail]
    rfl

/-- Some fuel is always there. -/
theorem Legible.readsBack_of_succ (h : Legible j)
    (hread : ∀ fuel rest, j.chars.length ≤ fuel + 1 → Ends rest →
      value (fuel + 1) (j.chars ++ rest) = some (j, rest)) : ReadsBack j := by
  intro fuel rest hfuel hrest
  obtain ⟨c, cs, hchars, _⟩ := h.exists_cons
  cases fuel with
  | zero =>
    rw [hchars] at hfuel
    exact absurd hfuel (Nat.not_succ_le_zero _)
  | succ fuel => exact hread fuel rest hfuel hrest

/-- **Every legible document is read back** in front of what can follow it. -/
theorem Legible.readsBack (h : Legible j) : ReadsBack j := by
  -- what follows a part is read by the lists and objects around it, so it is arbitrary in each case
  induction h with
  | null => exact Legible.null.readsBack_of_succ fun _ _ _ _ => rfl
  | bool value =>
    refine (Legible.bool value).readsBack_of_succ fun _ _ _ _ => ?_
    cases value <;> rfl
  | ofNat n => exact (Legible.ofNat n).readsBack_of_succ fun _ _ _ hrest => value_ofNat n hrest
  | string text =>
    exact (Legible.string text).readsBack_of_succ fun _ rest _ _ => value_quoted text rest
  | @list items h ih =>
    refine (Legible.list h).readsBack_of_succ fun fuel rest hfuel _ => ?_
    cases items with
    | nil => rfl
    | cons item others =>
      obtain ⟨hitem, hothers⟩ := List.forall_mem_cons.1 ih
      obtain ⟨c, cs, hchars, hopens⟩ := (h item List.mem_cons_self).exists_cons
      have hread := items_charsOfItems hitem hothers (Nat.le_of_succ_le_succ hfuel) rest
      rw [hchars, List.cons_append] at hread
      rw [chars, List.append_assoc, List.cons_append, hchars, List.cons_append, value_list hopens,
        hread]
      rfl
  | @object members h ih =>
    refine (Legible.object h).readsBack_of_succ fun fuel rest hfuel _ => ?_
    cases members with
    | nil => rfl
    | cons m others =>
      obtain ⟨hitem, hothers⟩ := List.forall_mem_cons.1 ih
      have hread := members_charsOfMembers m.1 hitem hothers (Nat.le_of_succ_le_succ hfuel)
        rest
      rw [quoted_append] at hread
      rw [chars, List.append_assoc, List.append_assoc, List.cons_append, List.cons_append,
        quoted_append, value_object, hread]
      rfl

/-- **A legible document is read back from its text.** -/
theorem Legible.ofText?_text (h : Legible j) : ofText? j.text = some j := by
  have hread := h.readsBack (j.chars.length + 1) [] (Nat.le_succ _) nofun
  rw [List.append_nil] at hread
  rw [ofText?, text, String.toList_ofList, ofChars?, hread]
  rfl

end CatalogStats.Json
