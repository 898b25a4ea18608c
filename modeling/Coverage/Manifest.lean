import Coverage.Span

/-!
The manifest of a file: its nodes, under pairwise distinct ids, and how they
form blocks. Either block indices are handed out beforehand and only their
number is known, or the nodes with one parent form one block. In the second
case the blocks are numbered in the order in which their parents first appear.
-/
namespace Coverage

inductive Layout where
  | indexed (count : UInt64)
  | byParent
deriving DecidableEq, Repr

structure Manifest where
  nodes : List Node
  layout : Layout
  distinct : (nodes.map (·.id)).Nodup
deriving DecidableEq

/-- The first element that also stands before `l` or earlier in it. -/
def firstRepeatFrom (earlier : List UInt64) : List UInt64 → Option UInt64
  | [] => none
  | id :: rest => if id ∈ earlier then some id else firstRepeatFrom (id :: earlier) rest

def firstRepeat (l : List UInt64) : Option UInt64 := firstRepeatFrom [] l

theorem firstRepeatFrom_eq_none_iff (earlier l : List UInt64) :
    firstRepeatFrom earlier l = none ↔ l.Nodup ∧ ∀ id ∈ l, id ∉ earlier := by
  induction l generalizing earlier with
  | nil => simp [firstRepeatFrom]
  | cons id rest ih =>
      simp only [firstRepeatFrom]
      split
      · rename_i h
        simp [h]
      · rename_i h
        rw [ih, List.nodup_cons]
        constructor
        · rintro ⟨hnodup, hnot⟩
          refine ⟨⟨fun hid => hnot id hid List.mem_cons_self, hnodup⟩, ?_⟩
          intro j hj
          rcases List.mem_cons.1 hj with rfl | hj
          · exact h
          · exact fun he => hnot j hj (List.mem_cons_of_mem _ he)
        · rintro ⟨⟨hid, hnodup⟩, hnot⟩
          refine ⟨hnodup, fun j hj he => ?_⟩
          rcases List.mem_cons.1 he with rfl | he
          · exact hid hj
          · exact hnot j (List.mem_cons_of_mem _ hj) he

theorem firstRepeat_eq_none_iff (l : List UInt64) : firstRepeat l = none ↔ l.Nodup := by
  simp [firstRepeat, firstRepeatFrom_eq_none_iff]

namespace Manifest

/-- Fails with the first id that is met a second time. -/
def ofNodes (nodes : List Node) (layout : Layout) : Except UInt64 Manifest :=
  match h : firstRepeat (nodes.map (·.id)) with
  | some id => .error id
  | none => .ok ⟨nodes, layout, (firstRepeat_eq_none_iff _).1 h⟩

/-- The parents that occur, in order of first appearance; `none` stands for the
file level. -/
def parents (m : Manifest) : List (Option Enclosure) := (m.nodes.map (·.parent)).eraseDups

def node? (m : Manifest) (id : UInt64) : Option Node := m.nodes.find? (·.id == id)

/-- The block of a node, where blocks follow from the parents. -/
def blockOf? (m : Manifest) (id : UInt64) : Option Nat :=
  match m.layout with
  | .indexed _ => none
  | .byParent => (m.node? id).map fun n => m.parents.idxOf n.parent

def blockCount (m : Manifest) : Nat :=
  match m.layout with
  | .indexed count => count.toNat
  | .byParent => m.parents.length

end Manifest

end Coverage
