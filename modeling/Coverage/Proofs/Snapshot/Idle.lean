import Coverage.Proofs.Snapshot

/-!
Idle events. A snapshot shows which nodes and which blocks were reached and nothing
else of the counts, so an event shows in it only if it reaches a node or a block of the
manifest for the first time. All other events may be left out of a run.
-/
namespace Coverage

namespace Manifest

/-- The event reaches nothing, or nothing new that the manifest knows. -/
inductive Idle (m : Manifest) (r : Recorder) (e : Event) : Prop where
  | nothing (h : e.amount = 0)
  | repeatedNode {id : UInt64} (hnode : e.node? = some id) (h : r.hasVisited id = true)
  | unknownNode {id : UInt64} (hnode : e.node? = some id) (h : ∀ n ∈ m.nodes, n.id ≠ id)
  | repeatedBlock {index : UInt64} (hblock : e.block? = some index)
      (h : r.blocks.contains index = true)
  | beyondBlocks {index count : UInt64} (hblock : e.block? = some index)
      (hlayout : m.layout = .indexed count) (h : count ≤ index)
  /-- Where blocks follow from the parents, their visits are not asked for. -/
  | groupedBlock {index : UInt64} (hblock : e.block? = some index) (hlayout : m.layout = .byParent)

/-- The second list is what is left of the first, a run that starts at the recorder,
when some of its idle events are left out. -/
inductive Thins (m : Manifest) : Recorder → List Event → List Event → Prop where
  | nil (r : Recorder) : Thins m r [] []
  | keep {r : Recorder} {e : Event} {events kept : List Event}
      (h : Thins m (r.observe e) events kept) : Thins m r (e :: events) (e :: kept)
  | skip {r : Recorder} {e : Event} {events kept : List Event} (hidle : m.Idle r e)
      (h : Thins m (r.observe e) events kept) : Thins m r (e :: events) kept

variable {m : Manifest} {r s t : Recorder} {e : Event}

theorem SameReach.refl (r : Recorder) : m.SameReach r r := ⟨fun _ _ => rfl, fun _ _ _ _ => rfl⟩

theorem SameReach.trans (hrs : m.SameReach r s) (hst : m.SameReach s t) : m.SameReach r t where
  nodes n hn := (hrs.nodes n hn).trans (hst.nodes n hn)
  blocks count hlayout index hindex :=
    (hrs.blocks count hlayout index hindex).trans (hst.blocks count hlayout index hindex)

/-- One event keeps what two recorders have in common. -/
theorem SameReach.observe (h : m.SameReach r s) (e : Event) :
    m.SameReach (r.observe e) (s.observe e) where
  nodes n hn := by
    rw [Bool.eq_iff_iff, Recorder.hasVisited_observe_iff, Recorder.hasVisited_observe_iff,
      h.nodes n hn]
  blocks count hlayout index hindex := by
    rw [Bool.eq_iff_iff, Recorder.contains_blocks_observe_iff,
      Recorder.contains_blocks_observe_iff, h.blocks count hlayout index hindex]

theorem Idle.hasVisited (h : m.Idle r e) {n : Node} (hn : n ∈ m.nodes)
    (hnode : e.node? = some n.id) (hamount : e.amount ≠ 0) : r.hasVisited n.id = true := by
  have hblock := Event.block?_eq_none_of_node? hnode
  cases h with
  | nothing hzero => exact absurd hzero hamount
  | repeatedNode hid hvisited =>
      rw [hnode] at hid
      exact Option.some.inj hid ▸ hvisited
  | unknownNode hid hunknown =>
      rw [hnode] at hid
      exact absurd (Option.some.inj hid) (hunknown n hn)
  | repeatedBlock hindex _ | beyondBlocks hindex _ _ | groupedBlock hindex _ =>
      rw [hblock] at hindex
      cases hindex

theorem Idle.contains (h : m.Idle r e) {count index : UInt64} (hlayout : m.layout = .indexed count)
    (hindex : index < count) (hblock : e.block? = some index) (hamount : e.amount ≠ 0) :
    r.blocks.contains index = true := by
  cases h with
  | nothing hzero => exact absurd hzero hamount
  | repeatedNode hnode _ | unknownNode hnode _ =>
      rw [Event.block?_eq_none_of_node? hnode] at hblock
      cases hblock
  | repeatedBlock hsame hvisited =>
      rw [hblock] at hsame
      exact Option.some.inj hsame ▸ hvisited
  | beyondBlocks hsame hindexed hbeyond =>
      rw [hblock] at hsame
      rw [hlayout] at hindexed
      cases hsame
      cases hindexed
      exact absurd hindex (UInt64.not_lt.2 hbeyond)
  | groupedBlock _ hgrouped =>
      rw [hlayout] at hgrouped
      cases hgrouped

theorem Idle.sameReach (h : m.Idle r e) : m.SameReach (r.observe e) r where
  nodes n hn := by
    rw [Bool.eq_iff_iff, Recorder.hasVisited_observe_iff]
    exact or_iff_left_of_imp fun hnew => h.hasVisited hn hnew.1 hnew.2
  blocks count hlayout index hindex := by
    rw [Bool.eq_iff_iff, Recorder.contains_blocks_observe_iff]
    exact or_iff_left_of_imp fun hnew => h.contains hlayout hindex hnew.1 hnew.2

theorem Thins.sameReach {events kept : List Event} (h : m.Thins r events kept)
    (hreach : m.SameReach r s) : m.SameReach (r.observeAll events) (s.observeAll kept) := by
  induction h generalizing s with
  | nil r => exact hreach
  | keep h ih => exact ih (hreach.observe _)
  | skip hidle h ih => exact ih (hidle.sameReach.trans hreach)

end Manifest

/-- Recorders that have reached the same give the same snapshot; so an idle event
changes no snapshot, and idle events may be left out of a run. -/
theorem Snapshot.ofLines_follows_reach (m : Manifest) (lines : List String) (source : String) :
    (∀ r s, m.SameReach r s → ofLines m r lines source = ofLines m s lines source) ∧
      (∀ r e, m.Idle r e → ofLines m (r.observe e) lines source = ofLines m r lines source) ∧
      ∀ r events kept, m.Thins r events kept →
        ofLines m (r.observeAll events) lines source =
          ofLines m (r.observeAll kept) lines source := by
  refine ⟨fun r s h => ?_, fun r e h => ?_, fun r events kept h => ?_⟩
  · exact ofLines_of_sameReach h lines source
  · exact ofLines_of_sameReach h.sameReach lines source
  · exact ofLines_of_sameReach (h.sameReach (.refl r)) lines source

/-- One event of every kind that is idle, among two that are not. -/
theorem Snapshot.ofLines_follows_reach_thinned :
    let m : Manifest := ⟨[⟨1, ⟨0, 0, 0, 4⟩, none⟩, ⟨2, ⟨1, 0, 1, 4⟩, none⟩], .indexed 2, by decide⟩
    let events : List Event := [.visitNode 1, .visitNode 1, .recordNode 2 0, .visitNode 7,
      .visitBlock 1, .visitBlock 5, .recordBlock 1 3]
    let kept : List Event := [.visitNode 1, .visitBlock 1]
    m.Thins .empty events kept ∧
      ofLines m (Recorder.empty.observeAll events) ["a();", "b();"] "" =
        ofLines m (Recorder.empty.observeAll kept) ["a();", "b();"] "" := by
  intro m events kept
  have hthins : m.Thins .empty events kept := by
    refine .keep (.skip (.repeatedNode rfl (by decide)) (.skip (.nothing rfl) (.skip ?_ ?_)))
    · exact .unknownNode rfl (by decide)
    · refine .keep (.skip (.beyondBlocks rfl rfl (by decide)) (.skip ?_ (.nil _)))
      exact .repeatedBlock rfl (by decide)
  exact ⟨hthins, (ofLines_follows_reach m ["a();", "b();"] "").2.2 .empty events kept hthins⟩

end Coverage
