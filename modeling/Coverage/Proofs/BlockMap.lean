import Coverage.BlockMap
import Coverage.Proofs.OrderedMap
import Coverage.Proofs.Reach

/-!
The pass that groups nodes finds the blocks that their parents have: it has met the
parents of the nodes behind it, each once and in order of appearance, and a block that
was given to a node stays the block of its parent however many parents follow.
-/
namespace Coverage

section FirstAppearance

variable {α : Type} [BEq α] [LawfulBEq α]

theorem eraseDups_concat (l : List α) (a : α) :
    (l ++ [a]).eraseDups = if a ∈ l.eraseDups then l.eraseDups else l.eraseDups ++ [a] := by
  rw [List.eraseDups_append]
  by_cases ha : a ∈ l
  · have hold : [a].removeAll l = [] := by simp [List.removeAll, ha]
    rw [if_pos (List.mem_eraseDups.2 ha), hold, List.eraseDups_nil, List.append_nil]
  · have hnew : [a].removeAll l = [a] := by simp [List.removeAll, ha]
    rw [if_neg (mt List.mem_eraseDups.1 ha), hnew]
    rfl

/-- An element keeps its place when another follows, and the other one's place is the
first that is free. -/
theorem idxOf_eraseDups_concat (l : List α) {a b : α} (h : b ∈ l ∨ b = a) :
    (l ++ [a]).eraseDups.idxOf b = l.eraseDups.idxOf b := by
  rw [eraseDups_concat]
  split
  · rfl
  · rename_i ha
    rcases h with hb | rfl
    · exact List.idxOf_append_of_mem (List.mem_eraseDups.2 hb)
    · rw [List.idxOf_append_of_notMem ha, List.idxOf_cons_self, List.idxOf_eq_length ha]
      rfl

end FirstAppearance

namespace BlockMap

theorem ofNodes_concat (nodes : List Node) (n : Node) :
    ofNodes (nodes ++ [n]) = (ofNodes nodes).assign n :=
  List.foldl_concat ..

theorem parents_ofNodes (nodes : List Node) :
    (ofNodes nodes).parents = (nodes.map (·.parent)).eraseDups := by
  induction nodes using List.reverseRecOn with
  | nil => rfl
  | append_singleton nodes n ih =>
      rw [ofNodes_concat, List.map_append, List.map_singleton, eraseDups_concat, ← ih]
      rfl

/-- The pass gives every node the block of its parent. -/
theorem blockOf?_ofNodes {nodes : List Node} (h : (nodes.map (·.id)).Nodup) (id : UInt64) :
    (ofNodes nodes).blockOf? id =
      (nodes.find? (·.id == id)).map fun n => (nodes.map (·.parent)).eraseDups.idxOf n.parent := by
  induction nodes using List.reverseRecOn with
  | nil => rfl
  | append_singleton nodes n ih =>
      rw [List.map_append, List.nodup_append] at h
      obtain ⟨hdistinct, -, hnew⟩ := h
      have hinsert : (ofNodes (nodes ++ [n])).blockOf? id =
          if id = n.id then some ((nodes.map (·.parent)).eraseDups.idxOf n.parent)
          else (ofNodes nodes).blockOf? id := by
        rw [ofNodes_concat, ← parents_ofNodes]
        exact OrderedMap.find?_insert ..
      rw [hinsert, List.find?_append, List.map_append, List.map_singleton]
      by_cases hid : id = n.id
      · have habsent : nodes.find? (·.id == id) = none := by
          rw [List.find?_eq_none]
          intro k hk
          have hne : k.id ≠ n.id := hnew k.id (List.mem_map_of_mem hk) n.id (by simp)
          simpa [hid] using hne
        have hlast : [n].find? (·.id == id) = some n := by simp [hid]
        rw [if_pos hid, habsent, hlast, Option.none_or, Option.map_some,
          idxOf_eraseDups_concat _ (.inr rfl)]
      · have hlast : [n].find? (·.id == id) = none := by simpa using Ne.symm hid
        rw [if_neg hid, ih hdistinct, hlast, Option.or_none]
        cases hfound : nodes.find? (·.id == id) with
        | none => rfl
        | some k =>
            have hparent : k.parent ∈ nodes.map (·.parent) :=
              List.mem_map_of_mem (List.mem_of_find?_eq_some hfound)
            rw [Option.map_some, Option.map_some, idxOf_eraseDups_concat _ (.inl hparent)]

end BlockMap

namespace Manifest

theorem blockMap?_isSome_iff (m : Manifest) :
    m.blockMap?.isSome = true ↔ m.layout = .byParent := by
  cases hlayout : m.layout <;> simp [blockMap?, hlayout]

theorem blockOf?_eq_blockMap? (m : Manifest) (id : UInt64) :
    m.blockOf? id = m.blockMap?.bind fun b => b.blockOf? id := by
  cases hlayout : m.layout with
  | indexed count => simp only [blockOf?, blockMap?, hlayout, Option.bind_none]
  | byParent =>
      simp only [blockOf?, blockMap?, hlayout, Option.bind_some,
        BlockMap.blockOf?_ofNodes m.distinct]
      rfl

theorem total_of_blockMap? {m : Manifest} {b : BlockMap} (h : m.blockMap? = some b) :
    b.total = m.blockCount := by
  cases hlayout : m.layout with
  | indexed count => simp [blockMap?, hlayout] at h
  | byParent =>
      simp only [blockMap?, hlayout, Option.some_inj] at h
      rw [← h, BlockMap.total, BlockMap.parents_ofNodes]
      simp only [blockCount, hlayout]
      rfl

end Manifest

end Coverage
