import Coverage.Manifest
import Coverage.OrderedMap

/-!
The blocks that follow from the parents, found in one pass over the nodes: a parent that
is met for the first time opens the next block, and every node goes into the block of its
parent.
-/
namespace Coverage

structure BlockMap where
  /-- The parents met so far; the place of a parent is the number of its block. -/
  parents : List (Option Enclosure)
  blocks : OrderedMap UInt64 Nat

namespace BlockMap

def empty : BlockMap := ⟨[], .empty⟩

def assign (b : BlockMap) (n : Node) : BlockMap where
  parents := if n.parent ∈ b.parents then b.parents else b.parents ++ [n.parent]
  blocks := b.blocks.insert n.id (b.parents.idxOf n.parent)

def ofNodes (nodes : List Node) : BlockMap := nodes.foldl assign empty

def blockOf? (b : BlockMap) (id : UInt64) : Option Nat := b.blocks.find? id

def total (b : BlockMap) : Nat := b.parents.length

end BlockMap

/-- Only where blocks follow from the parents is there a map of them. -/
def Manifest.blockMap? (m : Manifest) : Option BlockMap :=
  match m.layout with
  | .indexed _ => none
  | .byParent => some (.ofNodes m.nodes)

end Coverage
