import CatalogStats.Catalog.SnapshotRecord
import CatalogStats.Proofs.Format.JsonRoundTrip
import CatalogStats.Proofs.Preliminaries

/-!
# Proofs/Catalog/SnapshotRoundTrip — snapshots are read back from their text in JSON

Every record is written as an object with all its fields, under different names, so the reader finds
each field again (`fields?_object`) and in it the value that was written.  Texts may hold any
characters and counts have their full width.
-/

namespace CatalogStats

namespace Json

/-! ## Parts of records -/

/-- **The fields of an object** are the values of its members, if no two members share a name. -/
theorem fields?_object {names : List String} {members : List (String × Json)}
    (hnodup : names.Nodup) (hnames : members.map Prod.fst = names) :
    shape.fields? names (.object members) = some (members.map fun m => some m.2) := by
  subst hnames
  refine mapM_map_eq_some fun m hm => ?_
  rw [member?, filter_eq_singleton hnodup hm]

@[simp] theorem text?_string (s : String) : shape.text? (string s) = some s := rfl

theorem natural?_ofNat {n limit : ℕ} (h : n ≤ limit) : shape.natural? limit (ofNat n) = some n := by
  have hread : (Numeral.unsigned limit .tooLarge (Numeral.digits n)).toOption = some n := by
    rw [Numeral.unsigned_digits h]
    rfl
  rwa [← String.toList_ofList (l := Numeral.digits n)] at hread

/-- A number of 64 bits is read back… -/
@[simp] theorem count?_ofNat (n : UInt64) : shape.count? (ofNat n.toNat) = some n := by
  rw [Shape.count?, natural?_ofNat (Nat.le_of_lt_succ n.toNat_lt), Option.map_some]
  exact congrArg some (UInt64.ofNat_toNat)

/-- …and so is one of 32 bits. -/
@[simp] theorem measure?_ofNat (n : UInt32) : shape.measure? (ofNat n.toNat) = some n := by
  rw [Shape.measure?, natural?_ofNat (Nat.le_of_lt_succ n.toNat_lt), Option.map_some]
  exact congrArg some (UInt32.ofNat_toNat)

/-- A list is read back if its items are. -/
theorem listOf?_list {α : Type} {json : α → Json} {item? : Json → Option α}
    (h : ∀ a, item? (json a) = some a) (as : List α) :
    shape.listOf? item? (.list (as.map json)) = some as := by
  have hread := mapM_map_eq_some (l := as) (g := id) fun a _ => h a
  rwa [List.map_id] at hread

/-- A text that may be absent is read back. -/
theorem textOrAbsent?_elim (text? : Option String) :
    textOrAbsent? shape (text?.elim .null .string) = some text? := by
  cases text? <;> rfl

end Json

open Json

/-! ## Records -/

theorem ColumnType.ofRecord?_json (t : ColumnType) : ofRecord? shape t.json = some t := by
  have hfields : shape.fields? ["type_name", "length", "scale"] t.json = _ :=
    fields?_object (by decide) rfl
  rw [ofRecord?, hfields]
  simp [orDefault]

theorem QuantileEntry.ofRecord?_json (e : QuantileEntry) : ofRecord? shape e.json = some e := by
  have hfields : shape.fields? ["boundary", "cumulative_count"] e.json = _ :=
    fields?_object (by decide) rfl
  rw [ofRecord?, hfields]
  simp

theorem FrequentEntry.ofRecord?_json (e : FrequentEntry) : ofRecord? shape e.json = some e := by
  have hfields : shape.fields? ["value", "count"] e.json = _ := fields?_object (by decide) rfl
  rw [ofRecord?, hfields]
  simp

theorem Column.ofRecord?_json (c : Column) : ofRecord? shape c.json = some c := by
  have hfields : shape.fields? Column.fieldNames c.json = _ := fields?_object (by decide) rfl
  rw [ofRecord?, hfields]
  simp [orDefault, textOrAbsent?_elim, ColumnType.ofRecord?_json,
    listOf?_list QuantileEntry.ofRecord?_json, listOf?_list FrequentEntry.ofRecord?_json]

/-- **A snapshot is read back from its document.** -/
theorem Snapshot.ofRecord?_json (s : Snapshot) : ofRecord? shape s.json = some s := by
  have hfields : shape.fields? ["columns"] s.json = _ := fields?_object (by decide) rfl
  rw [ofRecord?, hfields]
  simp [orDefault, listOf?_list Column.ofRecord?_json]

/-! ## Documents of records -/

theorem ColumnType.legible_json (t : ColumnType) : Legible t.json := by
  refine .object ?_
  simp only [List.forall_mem_cons]
  exact ⟨.string _, .ofNat _, .ofNat _, nofun⟩

theorem QuantileEntry.legible_json (e : QuantileEntry) : Legible e.json := by
  refine .object ?_
  simp only [List.forall_mem_cons]
  exact ⟨.string _, .ofNat _, nofun⟩

theorem FrequentEntry.legible_json (e : FrequentEntry) : Legible e.json := by
  refine .object ?_
  simp only [List.forall_mem_cons]
  exact ⟨.string _, .ofNat _, nofun⟩

theorem Column.legible_json (c : Column) : Legible c.json := by
  have hminimum : Legible (c.reportedMin.elim .null .string) := by
    cases c.reportedMin with
    | none => exact .null
    | some text => exact .string text
  refine .object ?_
  simp only [List.forall_mem_cons]
  exact ⟨.string _, .string _, .string _, c.type.legible_json, hminimum, .ofNat _, .ofNat _,
    .list (List.forall_mem_map.2 fun e _ => e.legible_json),
    .list (List.forall_mem_map.2 fun e _ => e.legible_json), nofun⟩

/-- The text of a snapshot tells all of it. -/
theorem Snapshot.legible_json (s : Snapshot) : Legible s.json :=
  .object (List.forall_mem_singleton.2
    (.list (List.forall_mem_map.2 fun c _ => c.legible_json)))

/-! ## Texts -/

/-- A text in JSON, read as a snapshot and written again. -/
def Snapshot.rewritten? (text : String) : Option String :=
  (ofJsonText? text).map fun s => s.json.text

theorem Snapshot.ofJsonText?_text_json (s : Snapshot) : ofJsonText? s.json.text = some s := by
  rw [ofJsonText?, s.legible_json.ofText?_text]
  exact s.ofRecord?_json

/-- **Snapshots survive the way through their text in JSON.**  Every snapshot is read back from the
text that is written for it.  Any other text of a snapshot becomes such a text when it is written
again, with the same snapshot in it, and then stays as it is. -/
theorem Snapshot.json_roundTrip : (∀ s : Snapshot, ofJsonText? s.json.text = some s) ∧
    ∀ text text', rewritten? text = some text' →
      ofJsonText? text' = ofJsonText? text ∧ rewritten? text' = some text' := by
  refine ⟨ofJsonText?_text_json, fun text text' h => ?_⟩
  obtain ⟨s, hread, rfl⟩ := Option.map_eq_some_iff.1 h
  refine ⟨(s.ofJsonText?_text_json).trans hread.symm, ?_⟩
  rw [rewritten?, s.ofJsonText?_text_json]
  rfl

/-- A text in which a column is a list that ends early and a name has escapes: a character above the
basic plane, a control character and a quote. -/
def escapesText : String :=
  "[[ [\"s\", \"\\ud83d\\ude00\\u0001\\\"\", \"c\", [\"CHAR\", 1]," ++
    " null, 18446744073709551615] ]]"

/-- The snapshot in it. -/
def escapesSnapshot : Snapshot where
  columns := [{
    name := ⟨"s", "😀\x01\"", "c"⟩
    type := ⟨"CHAR", 1, 0⟩
    reportedMin := none
    cardinality := 18446744073709551615
    nulls := 0
    quantiles := []
    frequentValues := [] }]

/-- That text becomes another, which holds the same snapshot and stays. -/
theorem Snapshot.json_roundTrip_escapes :
    rewritten? escapesText = some escapesSnapshot.json.text ∧
    ofJsonText? escapesSnapshot.json.text = some escapesSnapshot ∧
    rewritten? escapesSnapshot.json.text = some escapesSnapshot.json.text := by
  have hread : ofJsonText? escapesText = some escapesSnapshot := by decide +kernel
  have hwritten : rewritten? escapesText = some escapesSnapshot.json.text := by
    rw [rewritten?, hread]
    rfl
  obtain ⟨hsame, hfixed⟩ := json_roundTrip.2 _ _ hwritten
  exact ⟨hwritten, hsame.trans hread, hfixed⟩

end CatalogStats
