import Coverage.Proofs.Manifest
import Coverage.Proofs.Recorder
import Coverage.Reach
import Mathlib.Data.Finset.Card
import Mathlib.Data.List.Perm.Subperm

/-!
What a recorder has reached, as far as a manifest can tell. Seen and missing
nodes split the manifest, and the number of reached blocks is the number of
distinct indices or parents that were visited. Recorders that have reached the
same cannot be told apart, and a recorder that extends another has reached more.
-/
namespace Coverage

theorem nodup_eraseDups {α : Type} [BEq α] [LawfulBEq α] (l : List α) : l.eraseDups.Nodup := by
  induction hlength : l.length using Nat.strongRecOn generalizing l with
  | ind length ih =>
      cases l with
      | nil => simp
      | cons a rest =>
          have hshort : (rest.filter fun b => !b == a).length < length := by
            have hle := List.length_filter_le (fun b => !b == a) rest
            rw [List.length_cons] at hlength
            omega
          rw [List.eraseDups_cons, List.nodup_cons]
          refine ⟨fun ha => ?_, ih _ hshort _ rfl⟩
          simpa using (List.mem_filter.1 (List.mem_eraseDups.1 ha)).2

theorem eraseDups_sublist {α : Type} [BEq α] [LawfulBEq α] (l : List α) :
    l.eraseDups.Sublist l := by
  induction hlength : l.length using Nat.strongRecOn generalizing l with
  | ind length ih =>
      cases l with
      | nil => simp
      | cons a rest =>
          have hshort : (rest.filter fun b => !b == a).length < length := by
            have hle := List.length_filter_le (fun b => !b == a) rest
            rw [List.length_cons] at hlength
            omega
          rw [List.eraseDups_cons]
          exact ((ih _ hshort _ rfl).trans List.filter_sublist).cons_cons a

/-- As many are left as there are distinct elements. -/
theorem length_eraseDups {α : Type} [BEq α] [LawfulBEq α] [DecidableEq α] (l : List α) :
    l.eraseDups.length = l.toFinset.card := by
  have hset : l.eraseDups.toFinset = l.toFinset := by
    ext a
    simp
  rw [← hset, List.toFinset_card_of_nodup (nodup_eraseDups l)]

namespace Manifest

variable {m : Manifest} {r s : Recorder}

@[simp]
theorem mem_seen_iff (m : Manifest) (r : Recorder) (n : Node) :
    n ∈ m.seen r ↔ n ∈ m.nodes ∧ r.hasVisited n.id = true :=
  List.mem_filter

@[simp]
theorem mem_missing_iff (m : Manifest) (r : Recorder) (n : Node) :
    n ∈ m.missing r ↔ n ∈ m.nodes ∧ r.hasVisited n.id = false := by
  simp [missing]

theorem length_seen_add_length_missing (m : Manifest) (r : Recorder) :
    (m.seen r).length + (m.missing r).length = m.nodes.length :=
  (List.length_eq_length_filter_add _).symm

theorem length_seen_le (m : Manifest) (r : Recorder) : (m.seen r).length ≤ m.nodes.length :=
  List.length_filter_le _ _

theorem seen_nodeTotals (m : Manifest) (r : Recorder) :
    (m.nodeTotals r).seen = (m.seen r).length :=
  Nat.min_eq_left (m.length_seen_le r)

theorem missing_nodeTotals (m : Manifest) (r : Recorder) :
    (m.nodeTotals r).missing = (m.missing r).length := by
  have hsplit := m.length_seen_add_length_missing r
  have hseen := m.seen_nodeTotals r
  show m.nodes.length - (m.nodeTotals r).seen = (m.missing r).length
  omega

/-- An id belongs to one node. -/
theorem node?_of_mem {n : Node} (h : n ∈ m.nodes) : m.node? n.id = some n := by
  cases hfound : m.node? n.id with
  | none =>
      have hother := List.find?_eq_none.1 hfound n h
      simp at hother
  | some k =>
      have hk : k ∈ m.nodes := List.mem_of_find?_eq_some hfound
      have hid : k.id = n.id := by simpa using List.find?_some hfound
      rw [List.inj_on_of_nodup_map m.distinct hk h hid]

theorem blockOf?_of_mem (hlayout : m.layout = .byParent) {n : Node} (h : n ∈ m.nodes) :
    m.blockOf? n.id = some (m.parents.idxOf n.parent) := by
  simp only [blockOf?, hlayout, node?_of_mem h, Option.map_some]

/-- The reached blocks are numbered by the parents of the seen nodes. -/
theorem toFinset_seenBlocks (hlayout : m.layout = .byParent) (r : Recorder) :
    ((m.seen r).filterMap fun n => m.blockOf? n.id).toFinset =
      ((m.seen r).map (·.parent)).toFinset.image m.parents.idxOf := by
  have hblock : ∀ n ∈ m.seen r, m.blockOf? n.id = some (m.parents.idxOf n.parent) := fun n hn =>
    blockOf?_of_mem hlayout ((m.mem_seen_iff r n).1 hn).1
  ext block
  simp only [List.mem_toFinset, List.mem_filterMap, Finset.mem_image, List.mem_map]
  constructor
  · intro hexists
    obtain ⟨n, hn, hfound⟩ := hexists
    rw [hblock n hn] at hfound
    exact ⟨n.parent, ⟨n, hn, rfl⟩, Option.some.inj hfound⟩
  · intro hexists
    obtain ⟨_, ⟨n, hn, rfl⟩, rfl⟩ := hexists
    exact ⟨n, hn, hblock n hn⟩

/-- Different parents have different blocks, so the reached blocks are as many as
the parents of the seen nodes. -/
theorem length_seenBlocks_byParent (hlayout : m.layout = .byParent) (r : Recorder) :
    (m.seenBlocks r).length = ((m.seen r).map (·.parent)).toFinset.card := by
  have hblocks : m.seenBlocks r = ((m.seen r).filterMap fun n => m.blockOf? n.id).eraseDups := by
    simp only [seenBlocks, hlayout]
  rw [hblocks, length_eraseDups, toFinset_seenBlocks hlayout]
  refine Finset.card_image_of_injOn fun p hp q _ heq => ?_
  obtain ⟨n, hn, rfl⟩ := List.mem_map.1 (List.mem_toFinset.1 hp)
  have hparent : n.parent ∈ m.parents :=
    List.mem_eraseDups.2 (List.mem_map.2 ⟨n, ((m.mem_seen_iff r n).1 hn).1, rfl⟩)
  exact (List.idxOf_inj hparent).1 heq

theorem length_seenBlocks_indexed {count : UInt64} (hlayout : m.layout = .indexed count)
    (r : Recorder) : (m.seenBlocks r).length = (r.blocks.keys.filter (· < count)).length := by
  simp only [seenBlocks, hlayout, List.length_map]

theorem mem_reachedIndices_iff (r : Recorder) (count index : UInt64) :
    index ∈ r.blocks.keys.filter (· < count) ↔
      index < count ∧ r.blocks.contains index = true := by
  rw [List.mem_filter, Tally.mem_keys_iff_contains, decide_eq_true_iff, and_comm]

theorem nodup_reachedIndices (r : Recorder) (count : UInt64) :
    (r.blocks.keys.filter (· < count)).Nodup :=
  r.blocks.counts.nodup_keys.sublist List.filter_sublist

/-- The recorders have visited the same of what the manifest knows. -/
structure SameReach (m : Manifest) (r s : Recorder) : Prop where
  nodes : ∀ n ∈ m.nodes, r.hasVisited n.id = s.hasVisited n.id
  blocks : ∀ count, m.layout = .indexed count →
    ∀ index < count, r.blocks.contains index = s.blocks.contains index

theorem SameReach.seen (h : m.SameReach r s) : m.seen r = m.seen s :=
  List.filter_congr h.nodes

theorem SameReach.missing (h : m.SameReach r s) : m.missing r = m.missing s :=
  List.filter_congr fun n hn => congrArg not (h.nodes n hn)

theorem SameReach.nodeTotals (h : m.SameReach r s) : m.nodeTotals r = m.nodeTotals s := by
  rw [Manifest.nodeTotals, Manifest.nodeTotals, h.seen]

theorem SameReach.length_seenBlocks (h : m.SameReach r s) :
    (m.seenBlocks r).length = (m.seenBlocks s).length := by
  cases hlayout : m.layout with
  | indexed count =>
      rw [length_seenBlocks_indexed hlayout, length_seenBlocks_indexed hlayout]
      refine List.Perm.length_eq ((List.perm_ext_iff_of_nodup (nodup_reachedIndices r count)
        (nodup_reachedIndices s count)).2 fun index => ?_)
      rw [mem_reachedIndices_iff, mem_reachedIndices_iff]
      exact and_congr_right fun hindex => by rw [h.blocks count hlayout index hindex]
  | byParent =>
      rw [length_seenBlocks_byParent hlayout, length_seenBlocks_byParent hlayout, h.seen]

theorem SameReach.blockTotals (h : m.SameReach r s) : m.blockTotals r = m.blockTotals s := by
  rw [Manifest.blockTotals, Manifest.blockTotals, h.length_seenBlocks]

section Extends

theorem seen_sublist_of_extends (h : r.Extends s) : (m.seen r).Sublist (m.seen s) :=
  List.monotone_filter_right _ fun n hn => h.nodes n.id hn

theorem missing_sublist_of_extends (h : r.Extends s) : (m.missing s).Sublist (m.missing r) := by
  refine List.monotone_filter_right _ fun n hn => ?_
  cases hr : r.hasVisited n.id with
  | false => rfl
  | true =>
      have hs : s.hasVisited n.id = true := h.nodes n.id hr
      rw [hs] at hn
      cases hn

theorem length_seenBlocks_le_of_extends (h : r.Extends s) :
    (m.seenBlocks r).length ≤ (m.seenBlocks s).length := by
  cases hlayout : m.layout with
  | indexed count =>
      rw [length_seenBlocks_indexed hlayout, length_seenBlocks_indexed hlayout]
      refine (List.Nodup.subperm (nodup_reachedIndices r count) fun index hindex => ?_).length_le
      rw [mem_reachedIndices_iff] at hindex ⊢
      exact ⟨hindex.1, h.blocks index hindex.2⟩
  | byParent =>
      rw [length_seenBlocks_byParent hlayout, length_seenBlocks_byParent hlayout]
      have hparents := (seen_sublist_of_extends (m := m) h).map (·.parent)
      refine Finset.card_le_card fun p hp => ?_
      exact List.mem_toFinset.2 (hparents.subset (List.mem_toFinset.1 hp))

end Extends

end Manifest

end Coverage
