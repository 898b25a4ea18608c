import Coverage.Proofs.OrderedMap
import Coverage.Recorder

/-!
Recorders seen through their counts. A tally is determined by its counts, and a
number is held exactly when its count is positive. What was visited stays
visited: along every run a recorder only extends.
-/
namespace Coverage

@[simp]
theorem zero_addSaturating (a : UInt64) : addSaturating 0 a = a := by
  apply UInt64.toNat_inj.1
  have ha : a.toNat < UInt64.size := a.toNat_lt
  rw [toNat_addSaturating, UInt64.toNat_zero]
  omega

@[simp]
theorem addSaturating_zero (a : UInt64) : addSaturating a 0 = a := by
  apply UInt64.toNat_inj.1
  have ha : a.toNat < UInt64.size := a.toNat_lt
  rw [toNat_addSaturating, UInt64.toNat_zero]
  omega

@[simp]
theorem addSaturating_eq_zero_iff (a b : UInt64) : addSaturating a b = 0 ↔ a = 0 ∧ b = 0 := by
  simp only [← UInt64.toNat_inj, toNat_addSaturating, UInt64.toNat_zero, UInt64.size]
  omega

namespace Tally

@[simp]
theorem count_empty (key : UInt64) : empty.count key = 0 := rfl

theorem find?_ne_zero (t : Tally) {key a : UInt64} (h : t.counts.find? key = some a) : a ≠ 0 :=
  t.positive (key, a) ((t.counts.find?_eq_some_iff key a).1 h)

theorem contains_iff_count_ne_zero (t : Tally) (key : UInt64) :
    t.contains key = true ↔ t.count key ≠ 0 := by
  rw [contains, count, OrderedMap.contains]
  cases hfound : t.counts.find? key with
  | none => simp
  | some a => simpa using t.find?_ne_zero hfound

theorem mem_keys_iff_contains (t : Tally) (key : UInt64) :
    key ∈ t.keys ↔ t.contains key = true :=
  (t.counts.contains_iff_mem_keys key).symm

/-- A tally holds its positive counts. -/
theorem find?_eq_some_iff_count (t : Tally) (key a : UInt64) :
    t.counts.find? key = some a ↔ t.count key = a ∧ a ≠ 0 := by
  rw [count]
  cases hfound : t.counts.find? key with
  | none => simpa using fun h : 0 = a => h.symm
  | some b => simpa using fun h : b = a => h ▸ t.find?_ne_zero hfound

/-- The same counts leave the same tally. -/
theorem ext_count {t u : Tally} (h : ∀ key, t.count key = u.count key) : t = u := by
  have hcounts : t.counts = u.counts := by
    refine OrderedMap.ext_find? fun key => ?_
    have hkey := h key
    simp only [count] at hkey
    cases ht : t.counts.find? key with
    | none =>
        cases hu : u.counts.find? key with
        | none => rfl
        | some b =>
            rw [ht, hu] at hkey
            exact absurd hkey.symm (u.find?_ne_zero hu)
    | some a =>
        cases hu : u.counts.find? key with
        | none =>
            rw [ht, hu] at hkey
            exact absurd hkey (t.find?_ne_zero ht)
        | some b =>
            rw [ht, hu] at hkey
            exact congrArg some hkey
  cases t
  cases u
  simpa using hcounts

@[simp]
theorem count_record (t : Tally) (key amount j : UInt64) :
    (t.record key amount).count j =
      if j = key then addSaturating (t.count key) amount else t.count j := by
  unfold record
  split
  · rename_i hzero
    rw [hzero, addSaturating_zero]
    split
    · rename_i hkey
      rw [hkey]
    · rfl
  · simp only [count, OrderedMap.find?_alter_of_eq]
    split <;> rfl

@[simp]
theorem contains_record_iff (t : Tally) (key amount j : UInt64) :
    (t.record key amount).contains j = true ↔ t.contains j = true ∨ (key = j ∧ amount ≠ 0) := by
  rw [contains_iff_count_ne_zero, contains_iff_count_ne_zero, count_record]
  split
  · rename_i hkey
    subst hkey
    rw [ne_eq, addSaturating_eq_zero_iff, Classical.not_and_iff_not_or_not]
    simp
  · rename_i hkey
    simp [Ne.symm hkey]

/-- Recording the counts of distinct numbers that were not counted before makes
them the counts. -/
theorem count_foldl_record {entries : List (UInt64 × UInt64)}
    (hdistinct : (entries.map (·.1)).Nodup) (t : Tally) (hnew : ∀ e ∈ entries, t.count e.1 = 0)
    (j : UInt64) :
    (entries.foldl (fun t e => t.record e.1 e.2) t).count j =
      (OrderedMap.lookup j entries).getD (t.count j) := by
  induction entries generalizing t with
  | nil => rfl
  | cons e rest ih =>
      obtain ⟨key, amount⟩ := e
      obtain ⟨hkey, hrest⟩ := List.nodup_cons.1 hdistinct
      have hother : ∀ e ∈ rest, (t.record key amount).count e.1 = 0 := by
        intro e he
        have hne : e.1 ≠ key := fun heq => hkey (heq ▸ List.mem_map.2 ⟨e, he, rfl⟩)
        rw [count_record, if_neg hne]
        exact hnew e (List.mem_cons_of_mem _ he)
      rw [List.foldl_cons, ih hrest _ hother, count_record, OrderedMap.lookup]
      by_cases hj : j = key
      · have hzero : t.count key = 0 := hnew (key, amount) List.mem_cons_self
        have hself : compare key key = .eq := Std.ReflCmp.compare_self
        rw [hj, OrderedMap.lookup_eq_none_of_not_mem hkey, if_pos rfl, if_pos hself, hzero,
          zero_addSaturating]
        rfl
      · have hcompare : compare j key ≠ .eq := fun h => hj (Std.LawfulEqOrd.compare_eq_iff_eq.1 h)
        rw [if_neg hj, if_neg hcompare]

end Tally

namespace Event

/-- The node that the event counts. -/
def node? : Event → Option UInt64
  | visitNode id | recordNode id _ => some id
  | visitBlock _ | recordBlock _ _ => none

/-- The block that the event counts. -/
def block? : Event → Option UInt64
  | visitNode _ | recordNode _ _ => none
  | visitBlock index | recordBlock index _ => some index

def amount : Event → UInt64
  | visitNode _ | visitBlock _ => 1
  | recordNode _ count | recordBlock _ count => count

theorem block?_eq_none_of_node? {e : Event} {id : UInt64} (h : e.node? = some id) :
    e.block? = none := by
  cases e with
  | visitNode _ | recordNode _ _ => rfl
  | visitBlock _ | recordBlock _ _ => cases h

end Event

namespace Recorder

theorem hasVisited_observe_iff (r : Recorder) (e : Event) (id : UInt64) :
    (r.observe e).hasVisited id = true ↔
      r.hasVisited id = true ∨ (e.node? = some id ∧ e.amount ≠ 0) := by
  cases e with
  | visitNode _ | recordNode _ _ =>
      rw [Event.node?, Option.some_inj]
      exact r.nodes.contains_record_iff ..
  | visitBlock _ | recordBlock _ _ => simp [Event.node?, observe, recordBlock, hasVisited]

theorem contains_blocks_observe_iff (r : Recorder) (e : Event) (index : UInt64) :
    (r.observe e).blocks.contains index = true ↔
      r.blocks.contains index = true ∨ (e.block? = some index ∧ e.amount ≠ 0) := by
  cases e with
  | visitNode _ | recordNode _ _ => simp [Event.block?, observe, recordNode]
  | visitBlock _ | recordBlock _ _ =>
      rw [Event.block?, Option.some_inj]
      exact r.blocks.contains_record_iff ..

/-- The later recorder has visited all that the earlier one has. -/
structure Extends (earlier later : Recorder) : Prop where
  nodes : ∀ id, earlier.nodes.contains id = true → later.nodes.contains id = true
  blocks : ∀ index, earlier.blocks.contains index = true → later.blocks.contains index = true

theorem Extends.refl (r : Recorder) : r.Extends r := ⟨fun _ h => h, fun _ h => h⟩

theorem Extends.trans {r s t : Recorder} (hrs : r.Extends s) (hst : s.Extends t) : r.Extends t :=
  ⟨fun id h => hst.nodes id (hrs.nodes id h), fun index h => hst.blocks index (hrs.blocks index h)⟩

theorem extends_recordNode (r : Recorder) (id count : UInt64) : r.Extends (r.recordNode id count) :=
  ⟨fun _ h => (Tally.contains_record_iff ..).2 (.inl h), fun _ h => h⟩

theorem extends_recordBlock (r : Recorder) (index count : UInt64) :
    r.Extends (r.recordBlock index count) :=
  ⟨fun _ h => h, fun _ h => (Tally.contains_record_iff ..).2 (.inl h)⟩

theorem extends_observe (r : Recorder) (e : Event) : r.Extends (r.observe e) := by
  cases e with
  | visitNode id => exact r.extends_recordNode id 1
  | visitBlock index => exact r.extends_recordBlock index 1
  | recordNode id count => exact r.extends_recordNode id count
  | recordBlock index count => exact r.extends_recordBlock index count

theorem extends_observeAll (r : Recorder) (events : List Event) :
    r.Extends (r.observeAll events) := by
  induction events generalizing r with
  | nil => exact .refl r
  | cons e rest ih => exact (r.extends_observe e).trans (ih (r.observe e))

@[simp]
theorem observeAll_append (r : Recorder) (first next : List Event) :
    r.observeAll (first ++ next) = (r.observeAll first).observeAll next :=
  List.foldl_append

theorem observeAll_recordNodes (r : Recorder) (entries : List (UInt64 × UInt64)) :
    r.observeAll (entries.map fun e => .recordNode e.1 e.2) =
      { r with nodes := entries.foldl (fun t e => t.record e.1 e.2) r.nodes } := by
  induction entries generalizing r with
  | nil => rfl
  | cons e rest ih => exact ih (r.recordNode e.1 e.2)

theorem observeAll_recordBlocks (r : Recorder) (entries : List (UInt64 × UInt64)) :
    r.observeAll (entries.map fun e => .recordBlock e.1 e.2) =
      { r with blocks := entries.foldl (fun t e => t.record e.1 e.2) r.blocks } := by
  induction entries generalizing r with
  | nil => rfl
  | cons e rest ih => exact ih (r.recordBlock e.1 e.2)

end Recorder

end Coverage
