import Coverage.Proofs.Dump.Text
import Mathlib.Data.List.Forall2

/-!
How a dump is written, read by read. The coordinates of a node, and those of its
parent, stand under the same names on their two levels; visits stand under decimal
numbers in ascending order; a dump without a number of blocks has no field for it,
while an absent source and an absent parent are null.
-/
namespace Coverage

open Json (Fields)

/-- The coordinates stand among the fields. -/
structure Span.SpelledIn (s : Span) (fields : Fields) : Prop where
  startLine : fields.required? "start_line" Json.word? = some s.startLine
  startColumn : fields.required? "start_column" Json.word? = some s.startColumn
  endLine : fields.required? "end_line" Json.word? = some s.endLine
  endColumn : fields.required? "end_column" Json.word? = some s.endColumn

def Enclosure.SpelledAs (p : Enclosure) (value : Json) : Prop :=
  ∃ fields, value.named? = some fields ∧ fields.map (·.1) = Span.fieldNames ++ ["label"] ∧
    p.span.SpelledIn fields ∧ fields.required? "label" Json.text? = some p.label

def Node.SpelledAs (n : Node) (value : Json) : Prop :=
  ∃ fields, value.named? = some fields ∧
    fields.map (·.1) = ["id"] ++ Span.fieldNames ++ ["parent"] ∧
    fields.required? "id" Json.word? = some n.id ∧ n.span.SpelledIn fields ∧
    match n.parent with
    | none => fields.lookup "parent" = some .null
    | some p => ∃ parent, fields.lookup "parent" = some parent ∧ p.SpelledAs parent

def Visits.SpelledAs (v : Visits) (value : Json) : Prop :=
  value = .object (v.entries.map fun e => (toString e.1, .ofWord e.2))

structure Dump.SpelledIn (d : Dump) (fields : Fields) : Prop where
  names : fields.map (·.1) = ["filename", "source", "nodes"] ++
    (if d.blockCount.isSome then ["block_count"] else []) ++ ["node_visits", "block_visits"]
  filename : ∃ filename, Path.ofText filename = d.filename ∧
    fields.required? "filename" Json.text? = some filename
  source : match d.source with
    | none => fields.lookup "source" = some .null
    | some text => fields.required? "source" Json.text? = some text
  nodes : ∃ items, fields.lookup "nodes" = some (.array items) ∧
    List.Forall₂ Node.SpelledAs d.nodes items
  blockCount : ∀ count, d.blockCount = some count →
    fields.required? "block_count" Json.word? = some count
  nodeVisits : ∃ value, fields.lookup "node_visits" = some value ∧ d.nodeVisits.SpelledAs value
  blockVisits : ∃ value, fields.lookup "block_visits" = some value ∧ d.blockVisits.SpelledAs value

theorem Enclosure.spelledAs_toJson (p : Enclosure) : p.SpelledAs p.toJson := by
  refine ⟨_, Json.named?_record _, by simp [Span.members, Span.fieldNames], ?_, ?_⟩
  · constructor <;>
      simp [Span.members]
  · simp [Span.members]

theorem Node.spelledAs_toJson (n : Node) : n.SpelledAs n.toJson := by
  refine ⟨_, Json.named?_record _, by simp [Span.members, Span.fieldNames], ?_, ?_, ?_⟩
  · simp
  · constructor <;>
      simp [Span.members]
  · cases n.parent with
    | none => simp [Span.members]
    | some p => exact ⟨p.toJson, by simp [Span.members], p.spelledAs_toJson⟩

/-- The fields of a dump stand under their names. -/
theorem Dump.named?_toJson {d : Dump} {filename : String} (h : .ofText filename = d.filename) :
    ∃ fields, (d.toJson filename).named? = some fields ∧ d.SpelledIn fields := by
  refine ⟨_, Json.named?_record _, ?_, ?_, ?_, ?_, ?_, ?_, ?_⟩
  · cases d.blockCount <;> rfl
  · exact ⟨filename, h, by simp⟩
  · cases d.source with
    | none => simp
    | some text => simp
  · refine ⟨d.nodes.map Node.toJson, by simp, ?_⟩
    rw [List.forall₂_map_right_iff, List.forall₂_same]
    exact fun n _ => n.spelledAs_toJson
  · intro count hcount
    simp [hcount]
  · refine ⟨_, ?_, d.nodeVisits.toJson_eq⟩
    cases d.blockCount <;> simp
  · refine ⟨_, ?_, d.blockVisits.toJson_eq⟩
    cases d.blockCount <;> simp

/-- A dump of which the file name is text can be written. The text is read back as the dump, and
it holds each part of the dump under the names that the reading looks for. -/
theorem Dump.text_read_back {d : Dump} (hfilename : Text.IsText d.filename.bytes) (origin : Path) :
    ∃ text, d.text = .ok text ∧ ofText text origin = .ok d ∧
      ∃ fields, (Json.ofText? text).bind Json.named? = some fields ∧ d.SpelledIn fields := by
  obtain ⟨text, htext⟩ := exists_text hfilename
  refine ⟨text, htext, ofText_of_text htext origin, ?_⟩
  obtain ⟨filename, hname, rfl⟩ := (d.text_eq_ok_iff text).1 htext
  rw [Json.ofText?_pretty (d.wellSpelled_toJson filename), Option.bind_some]
  exact named?_toJson hname

/-- A dump without a source and without a number of blocks. -/
def Dump.sparse : Dump where
  filename := "größe.js"
  source := none
  nodes := [⟨7, ⟨0, 0, 2, 1⟩, some ⟨⟨0, 0, 9, 0⟩, "f"⟩⟩]
  blockCount := none
  nodeVisits := .ofList [(7, 18446744073709551615)]
  blockVisits := .empty

theorem Dump.text_read_back_sparse : Text.IsText sparse.filename.bytes ∧
    ∃ text, sparse.text = .ok text ∧ ofText text "größe.js.cov.json" = .ok sparse := by
  have hfilename : Text.IsText sparse.filename.bytes := ⟨"größe.js", rfl⟩
  obtain ⟨text, htext, hread, -⟩ := text_read_back hfilename "größe.js.cov.json"
  exact ⟨hfilename, text, htext, hread⟩

end Coverage
