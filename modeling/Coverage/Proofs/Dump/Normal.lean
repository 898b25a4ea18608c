import Coverage.Proofs.Dump.Replay
import Coverage.Proofs.Path

/-!
Normal dumps. To replay a dump and store the session again leaves out what never took
effect: counts of zero, and counts of ids that no node has. It also settles the file
name and the source. What comes out is normal, as nothing more is left out of it or
settled in it, wherever it is replayed.
-/
namespace Coverage.Dump

/-- The dump of the session that the dump is replayed into. -/
def normalize (d : Dump) (base : Path) : Except Failure Dump := (d.replay base).map ofSession

/-- Two of the nodes have one id. -/
def RepeatsId (d : Dump) : Prop :=
  ∃ i j : Fin d.nodes.length, i < j ∧ d.nodes[i].id = d.nodes[j].id

def knows (d : Dump) (id : UInt64) : Bool := d.nodes.any (·.id == id)

/-- What is kept of a dump, and how the rest is settled. -/
structure NormalOf (d : Dump) (base : Path) (e : Dump) : Prop where
  filename : e.filename = if d.filename.isAbsolute then d.filename else base.join d.filename
  source : e.source = some (d.source.getD "")
  nodes : e.nodes = d.nodes
  blockCount : e.blockCount = d.blockCount
  nodeVisits : e.nodeVisits = d.nodeVisits.filter fun id count => d.knows id && count != 0
  /-- Indices that the number of blocks leaves no room for are kept. -/
  blockVisits : e.blockVisits = d.blockVisits.filter fun _ count => count != 0

theorem repeatsId_iff (d : Dump) : d.RepeatsId ↔ ¬ (d.nodes.map (·.id)).Nodup := by
  rw [List.nodup_iff_pairwise_ne, List.pairwise_map, List.pairwise_iff_getElem]
  constructor
  · rintro ⟨i, j, hlt, heq⟩ hdistinct
    exact hdistinct i j i.isLt j.isLt hlt heq
  · intro hrepeats
    simp only [Classical.not_forall, Classical.not_not] at hrepeats
    obtain ⟨i, j, hi, hj, hlt, heq⟩ := hrepeats
    exact ⟨⟨i, hi⟩, ⟨j, hj⟩, hlt, heq⟩

theorem knows_iff (d : Dump) (id : UInt64) : d.knows id = true ↔ ∃ n ∈ d.nodes, n.id = id := by
  simp [knows]

section Replay

variable {d : Dump} {base : Path} {s : Session}

theorem blockCount_ofSession (hlayout : s.manifest.layout = d.layout) :
    (ofSession s).blockCount = d.blockCount := by
  cases hcount : d.blockCount <;> simp [ofSession, hlayout, layout, hcount]

theorem counts_tally (v : Visits) : v.tally.counts = v.filter fun _ count => count != 0 := by
  refine OrderedMap.ext_find? fun key => ?_
  apply Option.ext
  intro a
  rw [Tally.find?_eq_some_iff_count, Visits.count_tally, OrderedMap.find?_filter]
  cases v.find? key with
  | none => simpa using fun h : 0 = a => h.symm
  | some b => grind

/-- The stored nodes are those that some count above zero reached. -/
theorem exists_mem_seen_iff (hnodes : s.manifest.nodes = d.nodes)
    (hvisits : s.recorder.nodes = d.nodeVisits.tally) (id : UInt64) :
    (∃ n ∈ s.seen, n.id = id) ↔ d.knows id = true ∧ (d.nodeVisits.find? id).getD 0 ≠ 0 := by
  have hvisited : s.recorder.hasVisited id = true ↔ (d.nodeVisits.find? id).getD 0 ≠ 0 := by
    rw [Recorder.hasVisited, Tally.contains_iff_count_ne_zero, hvisits, Visits.count_tally]
  rw [knows_iff, ← hvisited, ← hnodes, Session.seen, Manifest.seen]
  constructor
  · rintro ⟨n, hn, rfl⟩
    exact ⟨⟨n, (List.mem_filter.1 hn).1, rfl⟩, (List.mem_filter.1 hn).2⟩
  · rintro ⟨⟨n, hn, rfl⟩, hcounted⟩
    exact ⟨n, List.mem_filter.2 ⟨hn, hcounted⟩, rfl⟩

theorem nodeVisits_ofSession (hnodes : s.manifest.nodes = d.nodes)
    (hvisits : s.recorder.nodes = d.nodeVisits.tally) :
    (ofSession s).nodeVisits = d.nodeVisits.filter fun id count => d.knows id && count != 0 := by
  refine OrderedMap.ext_find? fun id => ?_
  apply Option.ext
  intro count
  rw [find?_nodeVisits_ofSession, exists_mem_seen_iff hnodes hvisits, hvisits, Visits.count_tally,
    OrderedMap.find?_filter]
  cases d.nodeVisits.find? id with
  | none => simp
  | some b => grind

end Replay

/-- Without a repeated id the dump is replayed, and stored again in its normal form. -/
theorem normalize_of_nodup (d : Dump) (base : Path) (h : (d.nodes.map (·.id)).Nodup) :
    ∃ e, d.normalize base = .ok e ∧ d.NormalOf base e := by
  refine ⟨_, congrArg (Except.map ofSession) (replay_of_nodup d base h), ?_⟩
  exact
    { filename := rfl
      source := rfl
      nodes := rfl
      blockCount := blockCount_ofSession rfl
      nodeVisits := nodeVisits_ofSession rfl rfl
      blockVisits := counts_tally d.blockVisits }

theorem replay_eq_error_iff (d : Dump) (base : Path) :
    (∃ id, d.replay base = .error (.repeatedId id)) ↔ d.RepeatsId := by
  rw [repeatsId_iff]
  constructor
  · rintro ⟨id, hfailed⟩ hdistinct
    rw [replay_of_nodup d base hdistinct] at hfailed
    cases hfailed
  · intro hrepeats
    obtain ⟨id, hid⟩ := Manifest.ofNodes_of_not_nodup d.layout hrepeats
    exact ⟨id, by rw [replay, hid]⟩

namespace NormalOf

variable {d e e' : Dump} {base other : Path}

theorem isAbsolute (h : d.NormalOf base e) (hbase : base.isAbsolute = true) :
    e.filename.isAbsolute = true := by
  rw [h.filename]
  split
  · assumption
  · exact Path.isAbsolute_join hbase d.filename

theorem knows (h : d.NormalOf base e) : e.knows = d.knows := by
  funext id
  rw [Dump.knows, Dump.knows, h.nodes]

/-- A normal dump is its own normal form, wherever it is replayed. -/
theorem idem (h : d.NormalOf base e) (habsolute : e.filename.isAbsolute = true)
    (h' : e.NormalOf other e') : e' = e := by
  have hfilename : e'.filename = e.filename := h'.filename.trans (if_pos habsolute)
  have hsource : e'.source = e.source := by rw [h'.source, h.source, Option.getD_some]
  have hnodeVisits : e'.nodeVisits = e.nodeVisits := by
    rw [h'.nodeVisits, h.knows, h.nodeVisits, OrderedMap.filter_filter]
  have hblockVisits : e'.blockVisits = e.blockVisits := by
    rw [h'.blockVisits, h.blockVisits, OrderedMap.filter_filter]
  cases e
  cases e'
  rw [Dump.mk.injEq]
  exact ⟨hfilename, hsource, h'.nodes, h'.blockCount, hnodeVisits, hblockVisits⟩

end NormalOf

/-- A dump is replayed unless two of its nodes have one id; it then has a normal form,
and normalizing that changes nothing any more. -/
theorem normalize_once (d : Dump) {base : Path} (hbase : base.isAbsolute = true) :
    ((∃ id, d.replay base = .error (.repeatedId id)) ↔ d.RepeatsId) ∧
      (¬ d.RepeatsId → ∃ e, d.normalize base = .ok e ∧ d.NormalOf base e ∧
        ∀ other, e.normalize other = .ok e) := by
  refine ⟨d.replay_eq_error_iff base, fun hdistinct => ?_⟩
  rw [repeatsId_iff, Classical.not_not] at hdistinct
  obtain ⟨e, hnormalize, hnormal⟩ := d.normalize_of_nodup base hdistinct
  refine ⟨e, hnormalize, hnormal, fun other => ?_⟩
  have hdistinct' : (e.nodes.map (·.id)).Nodup := hnormal.nodes ▸ hdistinct
  obtain ⟨e', hnormalize', hnormal'⟩ := e.normalize_of_nodup other hdistinct'
  rw [hnormalize', hnormal.idem (hnormal.isAbsolute hbase) hnormal']

/-- A node that was reached and one that was not, an unknown id, and a block beyond the
number of blocks. -/
def assorted : Dump where
  filename := "a.js"
  source := none
  nodes := [⟨1, ⟨0, 0, 0, 4⟩, none⟩, ⟨2, ⟨1, 0, 1, 4⟩, none⟩]
  blockCount := some 1
  nodeVisits := .ofList [(1, 3), (2, 0), (9, 4)]
  blockVisits := .ofList [(0, 0), (5, 2)]

theorem normalize_once_assorted : Path.isAbsolute "/p" = true ∧ ¬ assorted.RepeatsId ∧
    ∃ e, assorted.normalize "/p" = .ok e ∧ e.normalize "/p" = .ok e ∧
      e.filename = "/p/a.js" ∧ e.source = some "" ∧
      e.nodeVisits.entries = [(1, 3)] ∧ e.blockVisits.entries = [(5, 2)] := by
  have hbase : Path.isAbsolute "/p" = true := by decide +kernel
  have hdistinct : ¬ assorted.RepeatsId := by
    rw [repeatsId_iff, Classical.not_not]
    decide
  obtain ⟨e, hnormalize, hnormal, hagain⟩ := (assorted.normalize_once hbase).2 hdistinct
  refine ⟨hbase, hdistinct, e, hnormalize, hagain "/p", ?_, ?_, ?_, ?_⟩
  · rw [hnormal.filename]
    decide +kernel
  · rw [hnormal.source]
    rfl
  · rw [hnormal.nodeVisits]
    decide
  · rw [hnormal.blockVisits]
    decide

end Coverage.Dump
