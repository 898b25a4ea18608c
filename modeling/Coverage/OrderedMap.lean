/-!
Maps kept as lists of entries whose keys strictly ascend, so that equal maps
are equal lists and the order of the keys is the order in which they are
reported. Every change goes through `alter`, and `find?_alter` says what it
does to every key.
-/
namespace Coverage

structure OrderedMap (κ α : Type) [Ord κ] where
  entries : List (κ × α)
  ascending : entries.Pairwise fun a b => compare a.1 b.1 = .lt
deriving DecidableEq

namespace OrderedMap

variable {κ α : Type} [Ord κ]

def empty : OrderedMap κ α := ⟨[], .nil⟩

instance : Inhabited (OrderedMap κ α) := ⟨empty⟩

def lookup (key : κ) : List (κ × α) → Option α
  | [] => none
  | (k, a) :: rest => if compare key k = .eq then some a else lookup key rest

def find? (m : OrderedMap κ α) (key : κ) : Option α := lookup key m.entries

def contains (m : OrderedMap κ α) (key : κ) : Bool := (m.find? key).isSome

def keys (m : OrderedMap κ α) : List κ := m.entries.map (·.1)

def values (m : OrderedMap κ α) : List α := m.entries.map (·.2)

def size (m : OrderedMap κ α) : Nat := m.entries.length

def isEmpty (m : OrderedMap κ α) : Bool := m.entries.isEmpty

def alterEntries (key : κ) (f : Option α → α) : List (κ × α) → List (κ × α)
  | [] => [(key, f none)]
  | (k, a) :: rest =>
      match compare key k with
      | .lt => (key, f none) :: (k, a) :: rest
      | .eq => (k, f (some a)) :: rest
      | .gt => (k, a) :: alterEntries key f rest

theorem mem_alterEntries {key : κ} {f : Option α → α} {e : κ × α} {l : List (κ × α)}
    (h : e ∈ alterEntries key f l) :
    e ∈ l ∨ (e.1 = key ∧ e.2 = f none) ∨
      ∃ a, (e.1, a) ∈ l ∧ compare key e.1 = .eq ∧ e.2 = f (some a) := by
  induction l with
  | nil =>
      simp only [alterEntries, List.mem_singleton] at h
      subst h
      exact .inr (.inl ⟨rfl, rfl⟩)
  | cons head rest ih =>
      obtain ⟨k, a⟩ := head
      simp only [alterEntries] at h
      split at h
      · rcases List.mem_cons.1 h with rfl | h
        · exact .inr (.inl ⟨rfl, rfl⟩)
        · exact .inl h
      · rename_i hk
        rcases List.mem_cons.1 h with rfl | h
        · exact .inr (.inr ⟨a, List.mem_cons_self, hk, rfl⟩)
        · exact .inl (List.mem_cons_of_mem _ h)
      · rcases List.mem_cons.1 h with rfl | h
        · exact .inl List.mem_cons_self
        · rcases ih h with h | h | ⟨b, hb, he⟩
          · exact .inl (List.mem_cons_of_mem _ h)
          · exact .inr (.inl h)
          · exact .inr (.inr ⟨b, List.mem_cons_of_mem _ hb, he⟩)

theorem lookup_eq_none_of_lt {key : κ} {l : List (κ × α)}
    (h : ∀ e ∈ l, compare key e.1 = .lt) : lookup key l = none := by
  induction l with
  | nil => rfl
  | cons head rest ih =>
      have hhead := h head List.mem_cons_self
      simp only [lookup, hhead]
      exact ih fun e he => h e (List.mem_cons_of_mem _ he)

section Order

variable [Std.TransOrd κ]

theorem alterEntries_ascending (key : κ) (f : Option α → α) {l : List (κ × α)}
    (h : l.Pairwise fun a b => compare a.1 b.1 = .lt) :
    (alterEntries key f l).Pairwise fun a b => compare a.1 b.1 = .lt := by
  induction l with
  | nil => simp [alterEntries]
  | cons head rest ih =>
      obtain ⟨k, a⟩ := head
      obtain ⟨hhead, hrest⟩ := List.pairwise_cons.1 h
      simp only [alterEntries]
      split
      · rename_i hlt
        refine List.pairwise_cons.2 ⟨?_, h⟩
        intro e he
        rcases List.mem_cons.1 he with rfl | he
        · exact hlt
        · exact Std.TransCmp.lt_trans hlt (hhead e he)
      · exact List.pairwise_cons.2 ⟨hhead, hrest⟩
      · rename_i hgt
        refine List.pairwise_cons.2 ⟨?_, ih hrest⟩
        intro e he
        rcases mem_alterEntries he with he | ⟨hkey, _⟩ | ⟨b, hb, _⟩
        · exact hhead e he
        · simpa [hkey] using Std.OrientedCmp.gt_iff_lt.1 hgt
        · exact hhead (e.1, b) hb

/-- Puts `f` of the value now held under the key, if any, in its place. A key
that is already present keeps its spelling. -/
def alter (m : OrderedMap κ α) (key : κ) (f : Option α → α) : OrderedMap κ α :=
  ⟨alterEntries key f m.entries, alterEntries_ascending key f m.ascending⟩

def insert (m : OrderedMap κ α) (key : κ) (a : α) : OrderedMap κ α := m.alter key fun _ => a

/-- Of entries with equal keys the last one counts. -/
def ofList (entries : List (κ × α)) : OrderedMap κ α :=
  entries.foldl (fun m e => m.insert e.1 e.2) empty

theorem lookup_alterEntries (key j : κ) (f : Option α → α) {l : List (κ × α)}
    (h : l.Pairwise fun a b => compare a.1 b.1 = .lt) :
    lookup j (alterEntries key f l) =
      if compare j key = .eq then some (f (lookup key l)) else lookup j l := by
  induction l with
  | nil => simp [alterEntries, lookup]
  | cons head rest ih =>
      obtain ⟨k, a⟩ := head
      obtain ⟨hhead, hrest⟩ := List.pairwise_cons.1 h
      simp only [alterEntries]
      split
      · rename_i hlt
        have hnone : lookup key ((k, a) :: rest) = none := by
          refine lookup_eq_none_of_lt fun e he => ?_
          rcases List.mem_cons.1 he with rfl | he
          · exact hlt
          · exact Std.TransCmp.lt_trans hlt (hhead e he)
        rw [hnone]
        rfl
      · rename_i heq
        have hk : compare j key = .eq ↔ compare j k = .eq := by
          rw [Std.TransCmp.congr_right heq]
        simp only [lookup, heq, if_true, hk]
        split <;> rfl
      · rename_i hgt
        simp only [lookup, ih hrest, hgt]
        by_cases hj : compare j key = .eq
        · have hjk : compare j k = .gt := by rw [Std.TransCmp.congr_left hj, hgt]
          simp [hj, hjk]
        · simp [hj]

theorem find?_alter (m : OrderedMap κ α) (key j : κ) (f : Option α → α) :
    (m.alter key f).find? j = if compare j key = .eq then some (f (m.find? key)) else m.find? j :=
  lookup_alterEntries key j f m.ascending

end Order

end OrderedMap

end Coverage
