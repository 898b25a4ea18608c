import Coverage.Proofs.Snapshot
import Coverage.Session

/-!
Coverage only grows. A recorder that extends another has seen more and misses
less, in the nodes, in the blocks, in the lines and inside every line. The end that
is reported for a start column may move when a narrower node was reached, but only
outwards. An event extends the recorder, so a run never takes coverage back.
-/
namespace Coverage

/-- The later snapshot reports as much as the earlier one or more. -/
structure Snapshot.Grows (earlier later : Snapshot) : Prop where
  seenNodes : earlier.nodes.seen ≤ later.nodes.seen
  seenBlocks : earlier.blocks.seen ≤ later.blocks.seen
  seenLines : earlier.seen ≤ later.seen
  totalNodes : later.nodes.total = earlier.nodes.total
  totalBlocks : later.blocks.total = earlier.blocks.total
  totalLines : later.total = earlier.total
  linenos : later.lines.map (·.lineno) ⊆ earlier.lines.map (·.lineno)
  keys : later.coverage.keys ⊆ earlier.coverage.keys
  /-- Of a line that is still in the map fewer start columns are missing, none ends
  earlier, and it stays mixed. -/
  entries : ∀ lineno e e', earlier.coverage.find? lineno = some e →
    later.coverage.find? lineno = some e' → LineMap.Shrinks e e'

section Extends

variable {m : Manifest} {r s : Recorder}

theorem Manifest.seen_nodeTotals_le_of_extends (m : Manifest) (h : r.Extends s) :
    (m.nodeTotals r).seen ≤ (m.nodeTotals s).seen := by
  rw [m.seen_nodeTotals, m.seen_nodeTotals]
  exact (seen_sublist_of_extends h).length_le

theorem Manifest.seen_blockTotals_le_of_extends (m : Manifest) (h : r.Extends s) :
    (m.blockTotals r).seen ≤ (m.blockTotals s).seen := by
  have hblocks : (m.seenBlocks r).length ≤ (m.seenBlocks s).length :=
    length_seenBlocks_le_of_extends h
  show min (m.seenBlocks r).length m.blockCount ≤ min (m.seenBlocks s).length m.blockCount
  omega

theorem Snapshot.grows_of_extends (m : Manifest) (h : r.Extends s) (lines : List String)
    (source : String) : (ofLines m r lines source).Grows (ofLines m s lines source) := by
  have hseen : m.seen r ⊆ m.seen s := (Manifest.seen_sublist_of_extends h).subset
  have hmissing : m.missing s ⊆ m.missing r := (Manifest.missing_sublist_of_extends h).subset
  have hlines : (startLines (m.missing s) lines).length ≤ (startLines (m.missing r) lines).length :=
    length_startLines_mono hmissing lines
  constructor
  · exact m.seen_nodeTotals_le_of_extends h
  · exact m.seen_blockTotals_le_of_extends h
  · show lines.length - (startLines (m.missing r) lines).length ≤
      lines.length - (startLines (m.missing s) lines).length
    omega
  · rfl
  · rfl
  · rfl
  · exact startLinenos_subset hmissing lines
  · exact LineMap.keys_subset hmissing
  · intro lineno e e' he he'
    exact LineMap.shrinks_of_subset hmissing hseen he he'

end Extends

/-- No run of events takes anything back, whatever text the coverage is shown against. -/
theorem Session.coverage_grows (s : Session) (events : List Event) (text : String) :
    s.seen.Sublist (s.observeAll events).seen ∧
      (s.observeAll events).missing.Sublist s.missing ∧
      (s.snapshot text).Grows ((s.observeAll events).snapshot text) := by
  have hextends : s.recorder.Extends (s.recorder.observeAll events) :=
    s.recorder.extends_observeAll events
  rw [s.observeAll_eq]
  refine ⟨?_, ?_, ?_⟩
  · exact Manifest.seen_sublist_of_extends hextends
  · exact Manifest.missing_sublist_of_extends hextends
  · exact Snapshot.grows_of_extends s.manifest hextends (splitLines text) s.source

end Coverage
