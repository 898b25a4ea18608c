import Coverage.Proofs.BlockMap
import Coverage.Proofs.Manifest
import Mathlib.Order.Bounds.Basic

/-!
Which lists of nodes become a manifest. Ids that are pairwise distinct do, and the
manifest holds the nodes as they were given. Otherwise some id stands at an earlier place
too, and the first place where that is so names the id that is reported, whatever is
repeated behind it.
-/
namespace Coverage

/-- The id at the place stands at an earlier place too. -/
def Repeats (ids : List UInt64) (place : Nat) : Prop :=
  ∃ earlier < place, ∃ id, ids[earlier]? = some id ∧ ids[place]? = some id

theorem not_nodup_of_repeats {ids : List UInt64} {place : Nat} (h : Repeats ids place) :
    ¬ ids.Nodup := by
  obtain ⟨earlier, hlt, id, hearlier, hplace⟩ := h
  intro hnodup
  obtain ⟨hlength, -⟩ := List.getElem?_eq_some_iff.1 hplace
  exact List.nodup_iff_getElem?_ne_getElem?.1 hnodup earlier place hlt hlength
    (hearlier.trans hplace.symm)

/-- Up to the id that is found there is no repetition. -/
theorem split_of_firstRepeatFrom {earlier ids : List UInt64} {id : UInt64}
    (h : firstRepeatFrom earlier ids = some id) :
    ∃ before after, ids = before ++ id :: after ∧ before.Nodup ∧
      (∀ i ∈ before, i ∉ earlier) ∧ (id ∈ before ∨ id ∈ earlier) := by
  induction ids generalizing earlier with
  | nil => cases h
  | cons first rest ih =>
      rw [firstRepeatFrom] at h
      split at h
      · rename_i hfirst
        cases h
        exact ⟨[], rest, rfl, .nil, by simp, .inr hfirst⟩
      · rename_i hfirst
        obtain ⟨before, after, rfl, hnodup, hnew, hid⟩ := ih h
        refine ⟨first :: before, after, rfl, ?_, ?_, ?_⟩
        · refine List.nodup_cons.2 ⟨fun hmem => ?_, hnodup⟩
          exact hnew first hmem List.mem_cons_self
        · intro i hi
          rcases List.mem_cons.1 hi with rfl | hi
          · exact hfirst
          · exact fun hearlier => hnew i hi (List.mem_cons_of_mem _ hearlier)
        · rcases hid with hid | hid
          · exact .inl (List.mem_cons_of_mem _ hid)
          · rcases List.mem_cons.1 hid with rfl | hid
            · exact .inl List.mem_cons_self
            · exact .inr hid

theorem isLeast_of_firstRepeat {ids : List UInt64} {id : UInt64} (h : firstRepeat ids = some id) :
    ∃ place, IsLeast {place | Repeats ids place} place ∧ ids[place]? = some id := by
  obtain ⟨before, after, rfl, hnodup, -, hid⟩ := split_of_firstRepeatFrom h
  have hplace : (before ++ id :: after)[before.length]? = some id := by simp
  refine ⟨before.length, ⟨?_, ?_⟩, hplace⟩
  · have hmem : id ∈ before := by simpa using hid
    obtain ⟨earlier, hearlier⟩ := List.mem_iff_getElem?.1 hmem
    obtain ⟨hlt, -⟩ := List.getElem?_eq_some_iff.1 hearlier
    exact ⟨earlier, hlt, id, by rw [List.getElem?_append_left hlt, hearlier], hplace⟩
  · rintro place ⟨earlier, hlt, j, hearlier, hj⟩
    -- Two equal ids in front of the place would be a repetition there.
    by_contra hbefore
    rw [not_le] at hbefore
    rw [List.getElem?_append_left (hlt.trans hbefore)] at hearlier
    rw [List.getElem?_append_left hbefore] at hj
    exact not_nodup_of_repeats ⟨earlier, hlt, j, hearlier, hj⟩ hnodup

theorem firstRepeat_eq_some_iff (ids : List UInt64) (id : UInt64) :
    firstRepeat ids = some id ↔
      ∃ place, IsLeast {place | Repeats ids place} place ∧ ids[place]? = some id := by
  refine ⟨isLeast_of_firstRepeat, ?_⟩
  rintro ⟨place, hleast, hplace⟩
  cases hfirst : firstRepeat ids with
  | none =>
      exact absurd ((firstRepeat_eq_none_iff ids).1 hfirst) (not_nodup_of_repeats hleast.1)
  | some found =>
      obtain ⟨other, hother, hfound⟩ := isLeast_of_firstRepeat hfirst
      rw [hleast.unique hother, hfound] at hplace
      exact hplace

namespace Manifest

/-- The manifest holds the nodes as they were given, with a map of blocks exactly where
blocks follow from the parents. -/
structure Keeps (m : Manifest) (nodes : List Node) (layout : Layout) : Prop where
  same_nodes : m.nodes = nodes
  same_layout : m.layout = layout
  blockMap : m.blockMap?.isSome = true ↔ layout = .byParent
  blockOf : ∀ id, m.blockOf? id = m.blockMap?.bind fun b => b.blockOf? id
  blockCount : ∀ b, m.blockMap? = some b → b.total = m.blockCount

theorem ofNodes_eq_error_iff (nodes : List Node) (layout : Layout) (id : UInt64) :
    ofNodes nodes layout = .error id ↔ firstRepeat (nodes.map (·.id)) = some id := by
  unfold ofNodes
  split
  · rename_i found hfound
    rw [hfound, Except.error.injEq, Option.some_inj]
  · rename_i hnone
    simp [hnone]

theorem ofNodes_eq_ok_iff (nodes : List Node) (layout : Layout) (m : Manifest) :
    ofNodes nodes layout = .ok m ↔ m.nodes = nodes ∧ m.layout = layout := by
  constructor
  · intro hmade
    by_cases hdistinct : (nodes.map (·.id)).Nodup
    · rw [ofNodes_of_nodup layout hdistinct] at hmade
      cases hmade
      exact ⟨rfl, rfl⟩
    · obtain ⟨id, herror⟩ := ofNodes_of_not_nodup layout hdistinct
      rw [herror] at hmade
      cases hmade
  · rintro ⟨rfl, rfl⟩
    exact ofNodes_of_nodup m.layout m.distinct

theorem exists_ofNodes_eq_ok_iff (nodes : List Node) (layout : Layout) :
    (∃ m, ofNodes nodes layout = .ok m) ↔ nodes.Pairwise fun a b => a.id ≠ b.id := by
  constructor
  · rintro ⟨m, hmade⟩
    obtain ⟨rfl, -⟩ := (ofNodes_eq_ok_iff nodes layout m).1 hmade
    exact List.pairwise_map.1 m.distinct
  · intro hdistinct
    exact ⟨_, ofNodes_of_nodup layout (List.pairwise_map.2 hdistinct)⟩

/-- Nodes become a manifest exactly if their ids are pairwise distinct, and else fail
with the first id that is met again. -/
theorem ofNodes_keeps_or_repeats (nodes : List Node) (layout : Layout) :
    ((∃ m, ofNodes nodes layout = .ok m) ↔ nodes.Pairwise fun a b => a.id ≠ b.id) ∧
      (∀ m, ofNodes nodes layout = .ok m ↔ m.Keeps nodes layout) ∧
      ∀ id, ofNodes nodes layout = .error id ↔
        ∃ place n, IsLeast {place | Repeats (nodes.map (·.id)) place} place ∧
          nodes[place]? = some n ∧ n.id = id := by
  refine ⟨exists_ofNodes_eq_ok_iff nodes layout, fun m => ?_, fun id => ?_⟩
  · rw [ofNodes_eq_ok_iff]
    constructor
    · rintro ⟨rfl, rfl⟩
      exact ⟨rfl, rfl, m.blockMap?_isSome_iff, m.blockOf?_eq_blockMap?,
        fun _ => total_of_blockMap?⟩
    · exact fun h => ⟨h.same_nodes, h.same_layout⟩
  · rw [ofNodes_eq_error_iff, firstRepeat_eq_some_iff]
    simp only [List.getElem?_map, Option.map_eq_some_iff, exists_and_left]

end Manifest

end Coverage
