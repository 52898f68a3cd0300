import CatalogStats.Storage.Tree

/-!
# Proofs/Storage/Paths — where a name inside a directory is found

Joining a directory and a name adds one step to the path of the directory (`ofText_join`).  So what
is found there stands at the location of the directory, under that name
(`exists_of_locateFile_join`), and different names stand at different locations
(`eq_of_locateFile_join`).
-/

namespace CatalogStats

namespace Path

/-- **A name of a step down**: it has no slash and is none of the special steps. -/
structure IsStep (name : String) : Prop where
  not_slash : '/' ∉ name.toList
  ne_empty : name ≠ ""
  ne_stay : name ≠ "."
  ne_up : name ≠ up

variable {directory name : String}

theorem splitAt_slash_of_isStep (h : IsStep name) :
    splitAt '/' name.toList = [name.toList] := splitAt_of_not_mem h.not_slash

/-- Joining adds the name to the parts that count. -/
theorem exists_splitAt_join (directory : String) (h : IsStep name) : ∃ parts,
    splitAt '/' (join directory name).toList = parts ++ [name.toList] ∧
      (parts.filter fun p => p ≠ [] ∧ p ≠ ['.']) =
        (splitAt '/' directory.toList).filter fun p => p ≠ [] ∧ p ≠ ['.'] := by
  have hhead : ¬ name.toList.head? = some '/' := fun hs => h.not_slash (List.mem_of_head? hs)
  rw [join]
  by_cases hempty : directory = ""
  · rw [if_pos (.inl hempty), hempty, splitAt_slash_of_isStep h]
    exact ⟨[], rfl, rfl⟩
  rw [if_neg (not_or.2 ⟨hempty, hhead⟩)]
  split
  case isTrue hlast =>
    obtain ⟨ds, hds⟩ := List.getLast?_eq_some_iff.1 hlast
    rw [String.toList_append, hds, List.append_assoc, List.singleton_append,
      splitAt_append_cons, splitAt_append_cons, splitAt_slash_of_isStep h]
    refine ⟨_, rfl, ?_⟩
    rw [List.filter_append]
    exact (List.append_nil _).symm
  case isFalse =>
    rw [String.toList_append, String.toList_append, List.append_assoc,
      show "/".toList = ['/'] from rfl, List.singleton_append, splitAt_append_cons,
      splitAt_slash_of_isStep h]
    exact ⟨_, rfl, rfl⟩

theorem absolute_join (h : IsStep name) :
    (ofText (join directory name)).absolute = (ofText directory).absolute := by
  have hhead : ¬ name.toList.head? = some '/' := fun hs => h.not_slash (List.mem_of_head? hs)
  rw [join]
  by_cases hempty : directory = ""
  · rw [if_pos (.inl hempty), hempty]
    exact beq_eq_false_iff_ne.2 hhead
  rw [if_neg (not_or.2 ⟨hempty, hhead⟩)]
  have hne : directory.toList ≠ [] := fun hnil => hempty (String.toList_eq_nil_iff.1 hnil)
  obtain ⟨c, cs, hcs⟩ := List.exists_cons_of_ne_nil hne
  split
  · rw [ofText, ofText, String.toList_append, hcs]
    rfl
  · rw [ofText, ofText, String.toList_append, String.toList_append, hcs]
    rfl

/-- The name is what counts last. -/
theorem filter_name (h : IsStep name) :
    ([name.toList].filter fun p => p ≠ [] ∧ p ≠ ['.']) = [name.toList] := by
  have hne : name.toList ≠ [] := fun hnil => h.ne_empty (String.toList_eq_nil_iff.1 hnil)
  have hstay : name.toList ≠ ['.'] := fun hdot => h.ne_stay (String.toList_inj.1 hdot)
  exact List.filter_cons_of_pos (decide_eq_true ⟨hne, hstay⟩)

theorem join_ne_empty (h : IsStep name) : join directory name ≠ "" := by
  intro hjoin
  obtain ⟨parts, hparts, _⟩ := exists_splitAt_join directory h
  rw [hjoin] at hparts
  have hlast := congrArg List.getLast? hparts
  rw [List.getLast?_concat] at hlast
  exact h.ne_empty (String.toList_eq_nil_iff.1 (Option.some.inj hlast).symm)

/-- **Joining adds one step**, which may lead to a file. -/
theorem ofText_join (h : IsStep name) : ofText (join directory name) =
    ⟨(ofText directory).absolute, (ofText directory).steps ++ [name], false⟩ := by
  obtain ⟨parts, hparts, hfilter⟩ := exists_splitAt_join directory h
  have hsteps : (ofText (join directory name)).steps = (ofText directory).steps ++ [name] := by
    rw [ofText, ofText, hparts, List.filter_append, hfilter, filter_name h, List.map_append,
      List.map_singleton, String.ofList_toList]
  have hfile : (ofText (join directory name)).toDirectory = false := by
    have hne : name.toList ≠ [] := fun hnil => h.ne_empty (String.toList_eq_nil_iff.1 hnil)
    have hstay : name.toList ≠ ['.'] := fun hdot => h.ne_stay (String.toList_inj.1 hdot)
    rw [ofText, hparts, List.getLast?_concat]
    exact decide_eq_false (not_or.2 ⟨hne, hstay⟩)
  rw [← absolute_join h, ← hsteps, ← hfile]

end Path

namespace FileTree

variable {t : FileTree} {directory name other : String} {l : Location}

/-- Walking on from where the first steps lead. -/
theorem walk_append (t : FileTree) (l : Location) (steps more : List String) :
    t.walk l (steps ++ more) = (t.walk l steps).bind fun k => t.walk k more := by
  induction steps generalizing l with
  | nil => rfl
  | cons s steps ih =>
    rw [List.cons_append, walk, walk]
    split
    · split
      · exact ih _
      · split
        · exact ih _
        · rfl
    · rfl

/-- A step up from a directory is always taken. -/
theorem walk_up (h : t.isDirectory l = true) (steps : List String) :
    t.walk l (Path.up :: steps) = t.walk l.dropLast steps := by
  rw [walk, if_pos h, if_pos rfl]

/-- A step down from a directory is taken if the name is possible. -/
theorem walk_cons_of_isDirectory {s : String} (h : t.isDirectory l = true) (hs : s ≠ Path.up)
    (hname : Path.isName s = true) (steps : List String) :
    t.walk l (s :: steps) = t.walk (l ++ [s]) steps := by
  rw [walk, if_pos h, if_neg hs, if_pos hname]

/-- …and leads to the location below. -/
theorem walk_step {s : String} {k : Location} (hs : s ≠ Path.up) (h : t.walk l [s] = some k) :
    k = l ++ [s] := by
  rw [walk, if_neg hs] at h
  split at h
  · split at h
    · exact (Option.some.inj h).symm
    · cases h
  · cases h

/-- **The path of a name inside a directory** leads one step on from where that of the directory
leads. -/
theorem locateFile_join (hname : Path.IsStep name) : t.locateFile (Path.join directory name) =
    (t.follow (Path.ofText directory)).bind fun k => t.walk k [name] := by
  rw [locateFile, locate, follow, Path.ofText_join hname, if_neg Bool.false_ne_true,
    if_neg (Path.join_ne_empty hname), walk_append]
  rfl

/-- **What a directory holds under a name** stands at its location. -/
theorem exists_of_locateFile_join (hname : Path.IsStep name)
    (h : t.locateFile (Path.join directory name) = some l) :
    ∃ k, t.follow (Path.ofText directory) = some k ∧ l = k ++ [name] := by
  rw [locateFile_join hname, Option.bind_eq_some_iff] at h
  obtain ⟨k, hk, hstep⟩ := h
  exact ⟨k, hk, walk_step hname.ne_up hstep⟩

/-- …for every name that a file can have. -/
theorem locateFile_join_of_follow (hname : Path.IsStep name) (hpossible : Path.isName name = true)
    (h : t.follow (Path.ofText directory) = some l) (hl : t.isDirectory l = true) :
    t.locateFile (Path.join directory name) = some (l ++ [name]) := by
  rw [locateFile_join hname, h, Option.bind_some, walk_cons_of_isDirectory hl hname.ne_up hpossible]
  rfl

/-- **Different names stand at different locations.** -/
theorem eq_of_locateFile_join (hname : Path.IsStep name) (hother : Path.IsStep other)
    (h : t.locateFile (Path.join directory name) = some l)
    (h' : t.locateFile (Path.join directory other) = some l) : name = other := by
  obtain ⟨k, _, rfl⟩ := exists_of_locateFile_join hname h
  obtain ⟨k', _, heq⟩ := exists_of_locateFile_join hother h'
  have htexts : [name] = [other] := (List.append_inj' heq rfl).2
  exact (List.cons.inj htexts).1

end FileTree

end CatalogStats
