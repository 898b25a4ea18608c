import Coverage.Proofs.Reach

/-!
What block totals count. Where blocks follow from the parents, a parent that is met
for the first time opens the next block, so blocks and parents correspond and the
totals count parents. Where indices were handed out beforehand, the totals count the
indices in range that were visited. In neither case can more be seen than there is.
-/
namespace Coverage.Manifest

/-- The parents of the nodes, the file level among them if some node stands there. -/
def keys (m : Manifest) : Finset (Option Enclosure) := (m.nodes.map (·.parent)).toFinset

/-- The parents of the nodes that were visited. -/
def reachedKeys (m : Manifest) (r : Recorder) : Finset (Option Enclosure) :=
  m.keys.filter fun p => ∃ n ∈ m.nodes, n.parent = p ∧ r.hasVisited n.id = true

/-- The indices in range that were visited. -/
def reachedIndices (count : UInt64) (r : Recorder) : Finset Nat :=
  (Finset.range count.toNat).filter fun i => r.blocks.contains (.ofNat i)

/-- Every node is in the block of its parent, and each block has the number of parents
that were met before its own. -/
structure GroupedByParent (m : Manifest) : Prop where
  defined : ∀ id, (∃ block, m.blockOf? id = some block) ↔ ∃ n ∈ m.nodes, n.id = id
  same : ∀ n ∈ m.nodes, ∀ k ∈ m.nodes, m.blockOf? n.id = m.blockOf? k.id ↔ n.parent = k.parent
  used : ∀ block, (∃ n ∈ m.nodes, m.blockOf? n.id = some block) ↔ block < m.blockCount
  next : ∀ before n after, m.nodes = before ++ n :: after → (∀ k ∈ before, k.parent ≠ n.parent) →
    m.blockOf? n.id = some (before.map (·.parent)).toFinset.card

/-- The totals count what the layout calls a block, and nothing is cut off. -/
structure Counted (m : Manifest) (r : Recorder) : Prop where
  grouped : m.layout = .byParent → m.GroupedByParent
  total_byParent : m.layout = .byParent → (m.blockTotals r).total = m.keys.card
  seen_byParent : m.layout = .byParent → (m.blockTotals r).seen = (m.reachedKeys r).card
  total_indexed : ∀ count, m.layout = .indexed count → (m.blockTotals r).total = count.toNat
  seen_indexed : ∀ count, m.layout = .indexed count →
    (m.blockTotals r).seen = (reachedIndices count r).card
  blocks_le : (m.seenBlocks r).length ≤ m.blockCount
  blocks_seen : (m.blockTotals r).seen = (m.seenBlocks r).length
  blocks_split : (m.blockTotals r).seen + (m.blockTotals r).missing = (m.blockTotals r).total
  nodes_le : (m.seen r).length ≤ m.nodes.length
  nodes_seen : (m.nodeTotals r).seen = (m.seen r).length
  nodes_split : (m.nodeTotals r).seen + (m.nodeTotals r).missing = (m.nodeTotals r).total

variable {m : Manifest}

theorem parent_mem_parents {n : Node} (h : n ∈ m.nodes) : n.parent ∈ m.parents :=
  List.mem_eraseDups.2 (List.mem_map.2 ⟨n, h, rfl⟩)

theorem length_parents (m : Manifest) : m.parents.length = m.keys.card :=
  length_eraseDups _

theorem blockCount_byParent (hlayout : m.layout = .byParent) :
    m.blockCount = m.parents.length := by
  simp only [blockCount, hlayout]

theorem exists_blockOf?_iff (hlayout : m.layout = .byParent) (id : UInt64) :
    (∃ block, m.blockOf? id = some block) ↔ ∃ n ∈ m.nodes, n.id = id := by
  constructor
  · intro hexists
    obtain ⟨block, hblock⟩ := hexists
    simp only [blockOf?, hlayout] at hblock
    obtain ⟨n, hn, -⟩ := Option.map_eq_some_iff.1 hblock
    exact ⟨n, List.mem_of_find?_eq_some hn, by simpa using List.find?_some hn⟩
  · intro hexists
    obtain ⟨n, hn, rfl⟩ := hexists
    exact ⟨_, blockOf?_of_mem hlayout hn⟩

theorem blockOf?_eq_iff (hlayout : m.layout = .byParent) {n k : Node} (hn : n ∈ m.nodes)
    (hk : k ∈ m.nodes) : m.blockOf? n.id = m.blockOf? k.id ↔ n.parent = k.parent := by
  rw [blockOf?_of_mem hlayout hn, blockOf?_of_mem hlayout hk, Option.some_inj]
  exact List.idxOf_inj (parent_mem_parents hn)

theorem exists_mem_block_iff (hlayout : m.layout = .byParent) (block : Nat) :
    (∃ n ∈ m.nodes, m.blockOf? n.id = some block) ↔ block < m.blockCount := by
  rw [blockCount_byParent hlayout]
  constructor
  · intro hexists
    obtain ⟨n, hn, hblock⟩ := hexists
    rw [blockOf?_of_mem hlayout hn] at hblock
    cases hblock
    exact List.idxOf_lt_length_of_mem (parent_mem_parents hn)
  · intro hlt
    obtain ⟨n, hn, hparent⟩ := List.mem_map.1 (List.mem_eraseDups.1 (List.getElem_mem hlt))
    refine ⟨n, hn, ?_⟩
    rw [blockOf?_of_mem hlayout hn, hparent]
    exact congrArg some ((nodup_eraseDups _).idxOf_getElem block hlt)

/-- What is new after `before` comes right behind what `before` holds. -/
theorem idxOf_eraseDups_append {α : Type} [BEq α] [LawfulBEq α] [DecidableEq α] {before : List α}
    {a : α} (after : List α) (h : a ∉ before) :
    (before ++ a :: after).eraseDups.idxOf a = before.toFinset.card := by
  have hnew : (a :: after).removeAll before = a :: after.removeAll before := by
    simp [List.removeAll, h]
  have habsent : a ∉ before.eraseDups := fun ha => h (List.mem_eraseDups.1 ha)
  rw [List.eraseDups_append, List.idxOf_append_of_notMem habsent, hnew, List.eraseDups_cons,
    List.idxOf_cons_self, length_eraseDups, Nat.add_zero]

theorem groupedByParent (hlayout : m.layout = .byParent) : m.GroupedByParent where
  defined := exists_blockOf?_iff hlayout
  same _ hn _ hk := blockOf?_eq_iff hlayout hn hk
  used := exists_mem_block_iff hlayout
  next := by
    intro before n after hnodes hnew
    have hn : n ∈ m.nodes := by simp [hnodes]
    have hparent : n.parent ∉ before.map (·.parent) := by simpa using hnew
    rw [blockOf?_of_mem hlayout hn, parents, hnodes, List.map_append, List.map_cons,
      idxOf_eraseDups_append _ hparent]

theorem length_seenBlocks_eq_reachedKeys (hlayout : m.layout = .byParent) (r : Recorder) :
    (m.seenBlocks r).length = (m.reachedKeys r).card := by
  rw [length_seenBlocks_byParent hlayout]
  congr 1
  ext p
  simp only [reachedKeys, keys, List.mem_toFinset, List.mem_map, Finset.mem_filter, mem_seen_iff]
  constructor
  · intro hexists
    obtain ⟨n, ⟨hn, hvisited⟩, rfl⟩ := hexists
    exact ⟨⟨n, hn, rfl⟩, n, hn, rfl, hvisited⟩
  · intro hexists
    obtain ⟨-, n, hn, rfl, hvisited⟩ := hexists
    exact ⟨n, ⟨hn, hvisited⟩, rfl⟩

theorem length_seenBlocks_eq_reachedIndices {count : UInt64} (hlayout : m.layout = .indexed count)
    (r : Recorder) : (m.seenBlocks r).length = (reachedIndices count r).card := by
  have hblocks : m.seenBlocks r = (r.blocks.keys.filter (· < count)).map (·.toNat) := by
    simp only [seenBlocks, hlayout]
  have hnodup : (m.seenBlocks r).Nodup := by
    rw [hblocks]
    exact (nodup_reachedIndices r count).map fun a b => UInt64.toNat_inj.1
  have hset : (m.seenBlocks r).toFinset = reachedIndices count r := by
    ext i
    rw [List.mem_toFinset, hblocks, List.mem_map, reachedIndices, Finset.mem_filter,
      Finset.mem_range]
    simp only [mem_reachedIndices_iff]
    constructor
    · intro hexists
      obtain ⟨index, ⟨hlt, hvisited⟩, rfl⟩ := hexists
      exact ⟨UInt64.lt_iff_toNat_lt.1 hlt, by simpa using hvisited⟩
    · intro hin
      obtain ⟨hlt, hvisited⟩ := hin
      have hi : (UInt64.ofNat i).toNat = i :=
        UInt64.toNat_ofNat_of_lt' (Nat.lt_trans hlt count.toNat_lt)
      exact ⟨.ofNat i, ⟨UInt64.lt_iff_toNat_lt.2 (by rwa [hi]), hvisited⟩, hi⟩
  rw [← hset, List.toFinset_card_of_nodup hnodup]

/-- No more blocks are reached than there are, so the totals take them all. -/
theorem length_seenBlocks_le (m : Manifest) (r : Recorder) :
    (m.seenBlocks r).length ≤ m.blockCount := by
  cases hlayout : m.layout with
  | indexed count =>
      rw [length_seenBlocks_eq_reachedIndices hlayout]
      simp only [blockCount, hlayout]
      calc (reachedIndices count r).card
          ≤ (Finset.range count.toNat).card := Finset.card_filter_le _ _
        _ = count.toNat := Finset.card_range _
  | byParent =>
      rw [length_seenBlocks_eq_reachedKeys hlayout, blockCount_byParent hlayout, length_parents]
      exact Finset.card_filter_le _ _

theorem seen_blockTotals (m : Manifest) (r : Recorder) :
    (m.blockTotals r).seen = (m.seenBlocks r).length :=
  Nat.min_eq_left (m.length_seenBlocks_le r)

/-- Whatever the layout and the visits. -/
theorem counted (m : Manifest) (r : Recorder) : m.Counted r where
  grouped := groupedByParent
  total_byParent hlayout := (blockCount_byParent hlayout).trans m.length_parents
  seen_byParent hlayout := by rw [seen_blockTotals, length_seenBlocks_eq_reachedKeys hlayout]
  total_indexed count hlayout := by
    show m.blockCount = count.toNat
    simp only [blockCount, hlayout]
  seen_indexed count hlayout := by
    rw [seen_blockTotals, length_seenBlocks_eq_reachedIndices hlayout]
  blocks_le := m.length_seenBlocks_le r
  blocks_seen := m.seen_blockTotals r
  blocks_split := Nat.add_sub_cancel' (Nat.min_le_right _ _)
  nodes_le := m.length_seen_le r
  nodes_seen := m.seen_nodeTotals r
  nodes_split := Nat.add_sub_cancel' (Nat.min_le_right _ _)

end Coverage.Manifest
