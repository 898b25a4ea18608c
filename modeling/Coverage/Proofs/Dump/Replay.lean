import Coverage.Dump
import Coverage.Proofs.Manifest
import Coverage.Proofs.Recorder

/-!
Replaying stored visits. Starting from nothing, the replay of a map of visits
leaves its counts, so a stored tally comes back as it was. A session that is
stored and replayed keeps its manifest, its source, all block counts and the
counts of the ids that its manifest knows; other ids are forgotten.
-/
namespace Coverage

/-- What the replay of visits leaves behind. -/
def Visits.tally (v : Visits) : Tally := v.entries.foldl (fun t e => t.record e.1 e.2) .empty

namespace Visits

theorem count_tally (v : Visits) (key : UInt64) : v.tally.count key = (v.find? key).getD 0 :=
  Tally.count_foldl_record v.nodup_keys .empty (fun e _ => Tally.count_empty e.1) key

theorem tally_counts (t : Tally) : tally t.counts = t :=
  Tally.ext_count fun key => count_tally t.counts key

end Visits

namespace Dump

theorem observeAll_events (d : Dump) :
    Recorder.empty.observeAll d.events = ⟨d.nodeVisits.tally, d.blockVisits.tally⟩ := by
  rw [events, Recorder.observeAll_append, Recorder.observeAll_recordNodes,
    Recorder.observeAll_recordBlocks]
  rfl

theorem replay_of_nodup (d : Dump) (base : Path) (h : (d.nodes.map (·.id)).Nodup) :
    d.replay base = .ok
      { filename := d.filenameIn base
        manifest := ⟨d.nodes, d.layout, h⟩
        recorder := ⟨d.nodeVisits.tally, d.blockVisits.tally⟩
        source := d.source.getD "" } := by
  rw [replay, Manifest.ofNodes_of_nodup d.layout h]
  simp only [Session.observeAll_eq, Session.start, observeAll_events]

theorem layout_ofSession (s : Session) : (ofSession s).layout = s.manifest.layout := by
  cases hlayout : s.manifest.layout <;> simp [ofSession, layout, hlayout]

theorem find?_nodeVisits_ofSession (s : Session) (id count : UInt64) :
    (ofSession s).nodeVisits.find? id = some count ↔
      (∃ n ∈ s.seen, n.id = id) ∧ count = s.recorder.nodes.count id := by
  have hvalue : ∀ e ∈ s.seen.map fun n => (n.id, s.recorder.nodes.count n.id),
      e.2 = s.recorder.nodes.count e.1 := by
    intro e he
    obtain ⟨n, -, rfl⟩ := List.mem_map.1 he
    rfl
  rw [ofSession, OrderedMap.find?_ofList_eq_some_iff hvalue]
  simp only [List.map_map, List.mem_map, Function.comp_apply]

/-- The counts of known ids are stored and no others. -/
theorem count_nodeVisits_ofSession (s : Session) (id : UInt64) :
    ((ofSession s).nodeVisits.find? id).getD 0 =
      if id ∈ s.manifest.nodes.map (·.id) then s.recorder.nodes.count id else 0 := by
  by_cases hseen : ∃ n ∈ s.seen, n.id = id
  · obtain ⟨n, hn, rfl⟩ := hseen
    have hknown : n.id ∈ s.manifest.nodes.map (·.id) :=
      List.mem_map.2 ⟨n, (List.mem_filter.1 hn).1, rfl⟩
    rw [if_pos hknown, (find?_nodeVisits_ofSession s n.id _).2 ⟨⟨n, hn, rfl⟩, rfl⟩]
    rfl
  · have hnone : (ofSession s).nodeVisits.find? id = none := by
      rw [Option.eq_none_iff_forall_ne_some]
      intro count hcount
      exact hseen ((find?_nodeVisits_ofSession s id count).1 hcount).1
    rw [hnone]
    split
    · rename_i hknown
      obtain ⟨n, hn, rfl⟩ := List.mem_map.1 hknown
      -- A known id that was not seen has no count, so zero is right for it too.
      have hunseen : ¬ s.recorder.nodes.contains n.id = true := fun hvisited =>
        hseen ⟨n, List.mem_filter.2 ⟨hn, hvisited⟩, rfl⟩
      rw [Tally.contains_iff_count_ne_zero, Classical.not_not] at hunseen
      exact hunseen.symm
    · rfl

/-- A session that is stored and replayed. -/
theorem replay_ofSession (s : Session) (base : Path) :
    ∃ t, (ofSession s).replay base = .ok t ∧
      t.filename = (if s.filename.isAbsolute then s.filename else base.join s.filename) ∧
      t.manifest = s.manifest ∧ t.source = s.source ∧
      t.recorder.blocks = s.recorder.blocks ∧
      ∀ id, t.recorder.nodes.count id =
        if id ∈ s.manifest.nodes.map (·.id) then s.recorder.nodes.count id else 0 := by
  refine ⟨_, replay_of_nodup (ofSession s) base s.manifest.distinct, rfl, ?_, rfl, ?_, ?_⟩
  · exact Manifest.eq_of_nodes_layout rfl (layout_ofSession s)
  · exact Visits.tally_counts s.recorder.blocks
  · intro id
    rw [Visits.count_tally, count_nodeVisits_ofSession]

end Dump

end Coverage
