import CatalogStats.Format.YamlScalar

/-!
# Format/YamlReading — documents from their text in YAML

Collections are written in blocks, where indentation tells what belongs together, or between brackets,
where it does not matter.  Keys are scalars on one line, and scalars are plain or quoted.  What else YAML
has is not read: anchors and aliases, tags, directives, further documents, explicit keys and block
scalars.

Every part of a document has at least one character or is one of at most three empty steps between two
characters, so a multiple of the length of the text bounds the recursion.
-/

namespace CatalogStats.Yaml

/-! ## Flow collections -/

/-- The text after the colon of a flow member.  After a quoted key no gap has to follow it. -/
def afterColon (quotedKey : Bool) : List Glyph → Option (List Glyph)
  | [] => none
  | g :: gs => if g.char = ':' ∧ (quotedKey ∨ atGap gs) then some gs else none

/-- Whether a flow member ends here. -/
def atMemberEnd (gs : List Glyph) : Bool := gs.head?.any fun g => g.char == ',' || g.char == '}'

/-- The key of a flow member. -/
def flowKey (gs : List Glyph) : Option (String × List Glyph) :=
  if atQuote gs then quotedScalar gs else plainScalar true 0 gs

mutual

/-- A part of a flow collection. -/
def flowNode : Nat → List Glyph → Option (Yaml × List Glyph)
  | 0, _ => none
  | _ + 1, [] => none
  | fuel + 1, g :: gs =>
    if g.char = '[' then do
      let (items, rest) ← flowItems fuel (gaps true false false gs)
      some (list items, rest)
    else if g.char = '{' then do
      let (members, rest) ← flowMembers fuel (gaps true false false gs)
      some (mapping members, rest)
    else scalar true 0 (g :: gs)

/-- The items of a flow list up to its bracket. -/
def flowItems : Nat → List Glyph → Option (List Yaml × List Glyph)
  | 0, _ => none
  | _ + 1, [] => none
  | fuel + 1, g :: gs =>
    if g.char = ']' then some ([], gs)
    else do
      let (item, rest) ← flowNode fuel (g :: gs)
      match gaps true false false rest with
      | [] => none
      | h :: rest =>
        if h.char = ',' then do
          let (items, rest) ← flowItems fuel (gaps true false false rest)
          some (item :: items, rest)
        else if h.char = ']' then some ([item], rest)
        else none

/-- The members of a flow mapping up to its brace. -/
def flowMembers : Nat → List Glyph → Option (List (String × Yaml) × List Glyph)
  | 0, _ => none
  | _ + 1, [] => none
  | fuel + 1, g :: gs =>
    if g.char = '}' then some ([], gs)
    else do
      let (key, rest) ← flowKey (g :: gs)
      let rest := gaps true false false rest
      let (value, rest) ←
        match afterColon (atQuote (g :: gs)) rest with
        | none => some (empty, rest)
        | some rest =>
          let rest := gaps true false false rest
          if atMemberEnd rest then some (empty, rest) else flowNode fuel rest
      match gaps true false false rest with
      | [] => none
      | h :: rest =>
        if h.char = ',' then do
          let (members, rest) ← flowMembers fuel (gaps true false false rest)
          some ((key, value) :: members, rest)
        else if h.char = '}' then some ([(key, value)], rest)
        else none

end

/-! ## Block collections -/

/-- Whether an item of a block list starts here. -/
def atDash : List Glyph → Bool
  | [] => false
  | g :: gs => g.char == '-' && atGap gs

/-- Whether the text goes on at a column. -/
def atColumn (column : Nat) (gs : List Glyph) : Bool := gs.head?.any fun g => g.column == column

/-- Whether a mark of three characters starts a line here. -/
def atMark (mark : Char) (gs : List Glyph) : Bool :=
  (gs.take 3).map Glyph.char == [mark, mark, mark] && atColumn 0 gs && atGap (gs.drop 3)

/-- A key on one line with a colon and a gap after it; and what follows the colon. -/
def blockKey (gs : List Glyph) : Option (String × List Glyph) := do
  let (key, rest) ←
    if atQuote gs then quotedScalar gs
    else if startsPlain false gs then
      let (cs, rest) := plainPart false false gs
      some (String.ofList (trimEnd cs), rest)
    else none
  match gs.head?, rest.dropWhile fun g => isSpace g.char with
  | some first, g :: rest =>
    if g.char = ':' ∧ g.line = first.line ∧ atGap rest then some (key, rest) else none
  | _, _ => none

/-- A part that is no block collection.  `column` is the least column of its further lines. -/
def inlineNode (column : Nat) : List Glyph → Option (Yaml × List Glyph)
  | [] => none
  | g :: gs =>
    if g.char = '[' ∨ g.char = '{' then flowNode (4 * gs.length + 8) (g :: gs)
    else scalar false column (g :: gs)

mutual

/-- A part of a block collection.  `column` is the least column of its further lines. -/
def blockNode : Nat → Nat → List Glyph → Option (Yaml × List Glyph)
  | 0, _, _ => none
  | _ + 1, _, [] => none
  | fuel + 1, column, g :: gs =>
    if atDash (g :: gs) then do
      let (items, rest) ← blockItems fuel g.column (g :: gs)
      some (list items, rest)
    else if (blockKey (g :: gs)).isSome then do
      let (members, rest) ← blockMembers fuel g.column (g :: gs)
      some (mapping members, rest)
    else inlineNode column (g :: gs)

/-- The items of a block list, whose dashes stand in a column. -/
def blockItems : Nat → Nat → List Glyph → Option (List Yaml × List Glyph)
  | 0, _, _ => none
  | fuel + 1, column, gs => do
    let next := gaps false true false (gs.drop 1)
    let (item, rest) ←
      if next.head?.any fun g => column < g.column then blockNode fuel (column + 1) next
      else some (empty, next)
    let rest := gaps false false false rest
    if atColumn column rest && atDash rest then do
      let (items, rest) ← blockItems fuel column rest
      some (item :: items, rest)
    else some ([item], rest)

/-- The members of a block mapping, whose keys stand in a column. -/
def blockMembers : Nat → Nat → List Glyph → Option (List (String × Yaml) × List Glyph)
  | 0, _, _ => none
  | fuel + 1, column, gs => do
    let (key, rest) ← blockKey gs
    let next := gaps false false false rest
    let (value, rest) ←
      match next.head? with
      | none => some (empty, next)
      | some g =>
        if gs.head?.any fun h => h.line == g.line then inlineNode (column + 1) next
        else if column < g.column then blockNode fuel (column + 1) next
        else if column = g.column ∧ atDash next then do
          let (items, rest) ← blockItems fuel column next
          some (list items, rest)
        else some (empty, next)
    let rest := gaps false false false rest
    if atColumn column rest && !atMark '.' rest then do
      let (members, rest) ← blockMembers fuel column rest
      some ((key, value) :: members, rest)
    else some ([(key, value)], rest)

end

/-! ## Documents -/

/-- The text after a mark of three characters, if it starts with it. -/
def afterMark (mark : Char) (gs : List Glyph) : List Glyph :=
  if atMark mark gs then gaps false false false (gs.drop 3) else gs

/-- **Reads a document**: one, which may be empty.  Hyphens may stand before it and full stops after
it. -/
def ofChars? (cs : List Char) : Option Yaml :=
  if cs.all fun c => Glyph.isAllowed c || c == '\ufeff' then
    match afterMark '-' (gaps false true false (Glyph.ofChars cs)) with
    | [] => some empty
    | gs => do
      let (document, rest) ← blockNode (4 * gs.length + 8) 0 gs
      if (afterMark '.' (gaps false false false rest)).isEmpty then some document else none
  else none

/-- Reads a document from a string. -/
def ofText? (s : String) : Option Yaml := ofChars? s.toList

end CatalogStats.Yaml
