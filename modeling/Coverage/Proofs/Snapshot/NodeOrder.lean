import Coverage.Proofs.Snapshot

/-!
The order in which nodes are listed. Where blocks follow from the parents it
decides the number of each block, and everywhere which nodes are met first; yet
nothing of it reaches a snapshot, which needs the set of nodes and how many parents
occur among them.
-/
namespace Coverage

namespace Manifest

variable {m m' : Manifest}

/-- The manifests list the same nodes and form blocks in the same way. -/
structure Reordered (m m' : Manifest) : Prop where
  nodes : m.nodes.Perm m'.nodes
  layout : m.layout = m'.layout

theorem Reordered.seen (h : Reordered m m') (r : Recorder) : (m.seen r).Perm (m'.seen r) :=
  h.nodes.filter _

theorem Reordered.missing (h : Reordered m m') (r : Recorder) :
    (m.missing r).Perm (m'.missing r) :=
  h.nodes.filter _

theorem Reordered.nodeTotals (h : Reordered m m') (r : Recorder) :
    m.nodeTotals r = m'.nodeTotals r := by
  rw [Manifest.nodeTotals, Manifest.nodeTotals, h.nodes.length_eq, (h.seen r).length_eq]

theorem toFinset_parents_of_perm {nodes nodes' : List Node} (h : nodes.Perm nodes') :
    (nodes.map (·.parent)).toFinset = (nodes'.map (·.parent)).toFinset :=
  List.toFinset_eq_of_perm _ _ (h.map _)

theorem Reordered.blockCount (h : Reordered m m') : m.blockCount = m'.blockCount := by
  unfold Manifest.blockCount
  rw [← h.layout]
  cases m.layout with
  | indexed count => rfl
  | byParent =>
      change (m.nodes.map (·.parent)).eraseDups.length = (m'.nodes.map (·.parent)).eraseDups.length
      rw [length_eraseDups, length_eraseDups, toFinset_parents_of_perm h.nodes]

/-- The blocks that were reached may have other numbers, but they are as many. -/
theorem Reordered.length_seenBlocks (h : Reordered m m') (r : Recorder) :
    (m.seenBlocks r).length = (m'.seenBlocks r).length := by
  cases hlayout : m.layout with
  | indexed count =>
      have hlayout' : m'.layout = .indexed count := h.layout.symm.trans hlayout
      rw [length_seenBlocks_indexed hlayout, length_seenBlocks_indexed hlayout']
  | byParent =>
      have hlayout' : m'.layout = .byParent := h.layout.symm.trans hlayout
      rw [length_seenBlocks_byParent hlayout, length_seenBlocks_byParent hlayout',
        toFinset_parents_of_perm (h.seen r)]

theorem Reordered.blockTotals (h : Reordered m m') (r : Recorder) :
    m.blockTotals r = m'.blockTotals r := by
  rw [Manifest.blockTotals, Manifest.blockTotals, h.blockCount, h.length_seenBlocks]

theorem Reordered.ofLines (h : Reordered m m') (r : Recorder) (lines : List String)
    (source : String) : Snapshot.ofLines m r lines source = Snapshot.ofLines m' r lines source := by
  have hmissing : ∀ n, n ∈ m.missing r ↔ n ∈ m'.missing r := fun n => (h.missing r).mem_iff
  have hseen : ∀ n, n ∈ m.seen r ↔ n ∈ m'.seen r := fun n => (h.seen r).mem_iff
  rw [Snapshot.ofLines, Snapshot.ofLines, startLines_congr hmissing,
    LineMap.ofNodes_congr lines hmissing hseen, h.nodeTotals, h.blockTotals]

/-- The order of the nodes decides neither whether they form a manifest nor any part
of a snapshot. -/
theorem ofNodes_reordered {nodes nodes' : List Node} (h : nodes.Perm nodes') (layout : Layout) :
    (∃ id id', ofNodes nodes layout = .error id ∧ ofNodes nodes' layout = .error id') ∨
      ∃ m m', ofNodes nodes layout = .ok m ∧ ofNodes nodes' layout = .ok m' ∧
        ∀ r lines source,
          Snapshot.ofLines m r lines source = Snapshot.ofLines m' r lines source := by
  have hids : (nodes.map (·.id)).Nodup ↔ (nodes'.map (·.id)).Nodup := (h.map _).nodup_iff
  by_cases hdistinct : (nodes.map (·.id)).Nodup
  · right
    have hdistinct' := hids.1 hdistinct
    have hreordered : Reordered ⟨nodes, layout, hdistinct⟩ ⟨nodes', layout, hdistinct'⟩ := ⟨h, rfl⟩
    exact ⟨_, _, ofNodes_of_nodup layout hdistinct, ofNodes_of_nodup layout hdistinct',
      hreordered.ofLines⟩
  · left
    obtain ⟨id, hid⟩ := ofNodes_of_not_nodup layout hdistinct
    have hrepeats : ¬ (nodes'.map (·.id)).Nodup := fun hdistinct' => hdistinct (hids.2 hdistinct')
    obtain ⟨id', hid'⟩ := ofNodes_of_not_nodup layout hrepeats
    exact ⟨id, id', hid, hid'⟩

/-- Two nodes that start together, one of them cut; exchanged, they exchange their
blocks and change nothing else. -/
theorem ofNodes_exchanged :
    let short : Node := ⟨1, ⟨0, 2, 0, 5⟩, none⟩
    let long : Node := ⟨2, ⟨0, 2, 3, 5⟩, some ⟨⟨0, 0, 4, 0⟩, "main"⟩⟩
    ∃ m m', ofNodes [short, long] .byParent = .ok m ∧ ofNodes [long, short] .byParent = .ok m' ∧
      m.blockOf? 1 = some 0 ∧ m'.blockOf? 1 = some 1 ∧
      ∀ r lines source, Snapshot.ofLines m r lines source = Snapshot.ofLines m' r lines source := by
  intro short long
  have hshort : ofNodes [short, long] .byParent = .ok ⟨[short, long], .byParent, by decide⟩ :=
    ofNodes_of_nodup .byParent (by decide)
  have hlong : ofNodes [long, short] .byParent = .ok ⟨[long, short], .byParent, by decide⟩ :=
    ofNodes_of_nodup .byParent (by decide)
  obtain ⟨id, -, herror, -⟩ | ⟨m, m', hm, hm', hsame⟩ :=
    ofNodes_reordered (List.Perm.swap long short []) .byParent
  · rw [hshort] at herror
    cases herror
  · refine ⟨m, m', hm, hm', ?_, ?_, hsame⟩
    · rw [hshort] at hm
      cases hm
      rfl
    · rw [hlong] at hm'
      cases hm'
      rfl

end Manifest

end Coverage
