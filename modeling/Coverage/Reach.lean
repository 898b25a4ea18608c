import Coverage.Manifest
import Coverage.Recorder
import Coverage.Totals

/-!
What a recorder has reached of a manifest: the nodes split by whether they were
visited, and the totals of nodes and of blocks. Visits of ids and of block
indices that the manifest does not know count for nothing.
-/
namespace Coverage.Manifest

def seen (m : Manifest) (r : Recorder) : List Node := m.nodes.filter fun n => r.hasVisited n.id

def missing (m : Manifest) (r : Recorder) : List Node := m.nodes.filter fun n => !r.hasVisited n.id

def nodeTotals (m : Manifest) (r : Recorder) : Totals :=
  .ofSeen m.nodes.length (m.seen r).length

/-- The blocks that were reached: those visited by index, or those of the
visited nodes. -/
def seenBlocks (m : Manifest) (r : Recorder) : List Nat :=
  match m.layout with
  | .indexed count => (r.blocks.keys.filter (· < count)).map (·.toNat)
  | .byParent => ((m.seen r).filterMap fun n => m.blockOf? n.id).eraseDups

def blockTotals (m : Manifest) (r : Recorder) : Totals :=
  .ofSeen m.blockCount (m.seenBlocks r).length

end Coverage.Manifest
