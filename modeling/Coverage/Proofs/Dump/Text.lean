import Coverage.Dump.Format
import Coverage.Proofs.Json.Record
import Coverage.Proofs.OrderedMap
import Coverage.Proofs.Path

/-!
The text of a dump is read back as the dump it was written from, whatever it
holds besides the text that its file name has to be. Every part is written as a
record of distinct names, and its reading takes up the same names; the coordinates
of a node, which stand among its other fields, are the members left when those are
taken out.
-/
namespace Coverage

namespace Span

theorem ofFields?_members (s : Span) : ofFields? s.members = some s := by
  simp [ofFields?, members]

theorem canBeHeld_members (s : Span) (depth : Nat) :
    (s.members.all fun f => f.2.canBeHeld depth) = true := by
  simp [members]

theorem select?_members (s : Span) : Json.select? fieldNames s.members = some s.members := by
  rw [Json.select?_of_nodup fieldNames (by simp [members])]
  simp [members, fieldNames]

theorem wellSpelled_members (s : Span) : ∀ m ∈ s.members, m.2.WellSpelled := by
  simp [members]

/-- The coordinates are found when nothing else is left beside the known names. -/
theorem ofHeld?_of_filter {s : Span} {named : Json.Fields} {known : List String} (depth : Nat)
    (h : named.filter (fun f => !known.contains f.1) = s.members) :
    ofHeld? depth named known = some s := by
  simp only [ofHeld?, h, canBeHeld_members, if_true, select?_members, Option.bind_some,
    ofFields?_members]

end Span

namespace Enclosure

@[simp]
theorem ofJson?_toJson (p : Enclosure) (depth : Nat) : ofJson? depth p.toJson = some p := by
  have hnames : ((p.span.members ++ [("label", Json.ofText p.label)]).map (·.1)).Nodup := by
    simp [Span.members]
  have hown : Json.select? ["label"] (p.span.members ++ [("label", Json.ofText p.label)]) =
      some [("label", Json.ofText p.label)] := by
    rw [Json.select?_of_nodup _ hnames]
    simp [Span.members]
  have hspan : Span.ofHeld? depth (p.span.members ++ [("label", Json.ofText p.label)]) ["label"] =
      some p.span :=
    Span.ofHeld?_of_filter depth (by simp [Span.members])
  rw [ofJson?, toJson, Json.named?_record]
  simp only [Option.bind_eq_bind, Option.bind_some, hown, hspan]
  simp

theorem wellSpelled_toJson (p : Enclosure) : p.toJson.WellSpelled := by
  refine Json.wellSpelled_record fun m hm => ?_
  rcases List.mem_append.1 hm with hspan | hlabel
  · exact p.span.wellSpelled_members m hspan
  · rw [List.mem_singleton.1 hlabel]
    exact Json.wellSpelled_ofText p.label

end Enclosure

namespace Node

/-- Null stands for no parent, and no parent is written as null. -/
@[simp]
theorem optional?_parent (parent : Option Enclosure) (depth : Nat) :
    Json.optional? (Enclosure.ofJson? depth) ((parent.map Enclosure.toJson).getD .null) =
      some parent := by
  cases parent with
  | none => rfl
  | some p =>
      change (Enclosure.ofJson? depth p.toJson).map some = some (some p)
      rw [Enclosure.ofJson?_toJson]
      rfl

@[simp]
theorem ofJson?_toJson (n : Node) (depth : Nat) : ofJson? depth n.toJson = some n := by
  have hnames : (([("id", Json.ofWord n.id)] ++ n.span.members ++
      [("parent", (n.parent.map Enclosure.toJson).getD .null)]).map (·.1)).Nodup := by
    simp [Span.members]
  have hown : Json.select? ["id", "parent"] ([("id", Json.ofWord n.id)] ++ n.span.members ++
      [("parent", (n.parent.map Enclosure.toJson).getD .null)]) =
      some [("id", Json.ofWord n.id), ("parent", (n.parent.map Enclosure.toJson).getD .null)] := by
    rw [Json.select?_of_nodup _ hnames]
    simp [Span.members]
  have hspan : Span.ofHeld? depth ([("id", Json.ofWord n.id)] ++ n.span.members ++
      [("parent", (n.parent.map Enclosure.toJson).getD .null)]) ["id", "parent"] = some n.span :=
    Span.ofHeld?_of_filter depth (by simp [Span.members])
  rw [ofJson?, toJson, Json.named?_record]
  simp only [Option.bind_eq_bind, Option.bind_some, hown, hspan]
  simp

theorem wellSpelled_toJson (n : Node) : n.toJson.WellSpelled := by
  refine Json.wellSpelled_record fun m hm => ?_
  rcases List.mem_append.1 hm with hfront | hparent
  · rcases List.mem_append.1 hfront with hid | hspan
    · rw [List.mem_singleton.1 hid]
      exact Json.wellSpelled_ofWord n.id
    · exact n.span.wellSpelled_members m hspan
  · rw [List.mem_singleton.1 hparent]
    cases n.parent with
    | none => trivial
    | some p => exact p.wellSpelled_toJson

end Node

namespace Visits

theorem toJson_eq (v : Visits) :
    v.toJson = .object (v.entries.map fun e => (toString e.1, Json.ofWord e.2)) := by
  rw [toJson, Json.record, List.map_map]
  congr 1
  refine List.map_congr_left fun e _ => ?_
  have hkey : Json.escape (toString e.1) = toString e.1 := Json.escape_toString e.1.toNat
  rw [Function.comp_apply, hkey]

@[simp]
theorem ofJson?_toJson (v : Visits) : ofJson? v.toJson = some v := by
  rw [toJson_eq, ofJson?, Json.mapM_map_eq_some _ _ id fun e _ => ?_]
  · simp
  · simp

theorem wellSpelled_toJson (v : Visits) : v.toJson.WellSpelled := by
  refine Json.wellSpelled_record fun m hm => ?_
  obtain ⟨e, _, rfl⟩ := List.mem_map.1 hm
  exact Json.wellSpelled_ofWord e.2

end Visits

namespace Dump

/-- The fields that are written, under their names. -/
theorem fields?_toJson (d : Dump) (filename : String) :
    Json.fields? fieldNames (d.toJson filename) = some
    ([("filename", .ofText filename), ("source", (d.source.map Json.ofText).getD .null),
      ("nodes", .array (d.nodes.map Node.toJson))] ++
      (d.blockCount.map fun count => ("block_count", Json.ofWord count)).toList ++
      [("node_visits", d.nodeVisits.toJson), ("block_visits", d.blockVisits.toJson)]) := by
  rw [toJson]
  refine Json.fields?_record ?_ ?_
  · cases d.blockCount <;> simp
  · cases d.blockCount <;> simp [fieldNames]

@[simp]
theorem optional?_source (source : Option String) :
    Json.optional? Json.text? ((source.map Json.ofText).getD .null) = some source := by
  cases source with
  | none => rfl
  | some text =>
      change (Json.text? (.ofText text)).map some = some (some text)
      rw [Json.text?_ofText]
      rfl

@[simp]
theorem optional?_word (count : UInt64) :
    Json.optional? Json.word? (.ofWord count) = some (some count) := by
  change (Json.word? (.ofWord count)).map some = some (some count)
  rw [Json.word?_ofWord]
  rfl

theorem ofJson?_toJson {d : Dump} {filename : String} (h : .ofText filename = d.filename) :
    ofJson? (d.toJson filename) = some d := by
  have hnodes : Json.list? (Node.ofJson? 3) (.array (d.nodes.map Node.toJson)) = some d.nodes :=
    Json.list?_map (fun n => n.ofJson?_toJson 3) d.nodes
  rw [ofJson?, fields?_toJson]
  obtain ⟨path, source, nodes, blockCount, nodeVisits, blockVisits⟩ := d
  subst h
  cases blockCount <;>
    simp [hnodes]

theorem wellSpelled_toJson (d : Dump) (filename : String) : (d.toJson filename).WellSpelled := by
  have hsource : ((d.source.map Json.ofText).getD .null).WellSpelled := by
    cases d.source with
    | none => trivial
    | some text => exact Json.wellSpelled_ofText text
  have hnodes : (Json.array (d.nodes.map Node.toJson)).WellSpelled := by
    refine Json.wellSpelled_array fun item hitem => ?_
    obtain ⟨n, _, rfl⟩ := List.mem_map.1 hitem
    exact n.wellSpelled_toJson
  refine Json.wellSpelled_record fun m hm => ?_
  cases hcount : d.blockCount <;> rw [hcount] at hm <;>
    simp only [Option.map_none, Option.map_some, Option.toList_none, Option.toList_some,
      List.append_nil, List.cons_append, List.nil_append, List.mem_cons, List.not_mem_nil,
      or_false] at hm
  · rcases hm with rfl | rfl | rfl | rfl | rfl
    · exact Json.wellSpelled_ofText filename
    · exact hsource
    · exact hnodes
    · exact d.nodeVisits.wellSpelled_toJson
    · exact d.blockVisits.wellSpelled_toJson
  · rcases hm with rfl | rfl | rfl | rfl | rfl | rfl
    · exact Json.wellSpelled_ofText filename
    · exact hsource
    · exact hnodes
    · exact Json.wellSpelled_ofWord _
    · exact d.nodeVisits.wellSpelled_toJson
    · exact d.blockVisits.wellSpelled_toJson

/-- A dump is written just if its file name is text. -/
theorem text_eq_ok_iff (d : Dump) (text : String) :
    d.text = .ok text ↔
      ∃ filename, Path.ofText filename = d.filename ∧ (d.toJson filename).pretty = text := by
  rw [Dump.text]
  cases hfilename : d.filename.text? with
  | none =>
      have hnone : ∀ filename, Path.ofText filename ≠ d.filename := fun filename h => by
        rw [(d.filename.text?_eq_some_iff filename).2 h] at hfilename
        cases hfilename
      simp [hnone]
  | some filename =>
      have hsome := (d.filename.text?_eq_some_iff filename).1 hfilename
      simp [← hsome, Path.ofText]

theorem exists_text {d : Dump} (h : Text.IsText d.filename.bytes) : ∃ text, d.text = .ok text := by
  obtain ⟨filename, hbytes⟩ := h
  exact ⟨_, (d.text_eq_ok_iff _).2 ⟨filename, congrArg Path.mk hbytes, rfl⟩⟩

/-- Whatever the origin, which only a failure would name. -/
theorem ofText_of_text {d : Dump} {text : String} (h : d.text = .ok text) (origin : Path) :
    ofText text origin = .ok d := by
  obtain ⟨filename, hfilename, rfl⟩ := (d.text_eq_ok_iff text).1 h
  rw [ofText, Json.ofText?_pretty (d.wellSpelled_toJson filename), Option.bind_some,
    ofJson?_toJson hfilename]

end Dump

end Coverage
