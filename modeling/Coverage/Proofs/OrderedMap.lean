import Coverage.OrderedMap

/-!
Ordered maps seen through look-up. The entries of a map are what look-up finds,
so maps that are looked up alike are equal. What each way of building a map does
to look-up and to the keys is stated here once, over keys whose comparison
decides equality.
-/
namespace Coverage.OrderedMap

variable {κ α : Type} [Ord κ]

@[simp]
theorem find?_empty (key : κ) : (empty : OrderedMap κ α).find? key = none := rfl

theorem lookup_eq_none_of_not_mem [Std.LawfulEqOrd κ] {l : List (κ × α)} {key : κ}
    (h : key ∉ l.map (·.1)) : lookup key l = none := by
  induction l with
  | nil => rfl
  | cons e rest ih =>
      rw [List.map_cons, List.mem_cons, not_or] at h
      have hcompare : compare key e.1 ≠ .eq := fun he =>
        h.1 (Std.LawfulEqOrd.compare_eq_iff_eq.1 he)
      rw [lookup, if_neg hcompare, ih h.2]

theorem keys_ascending (m : OrderedMap κ α) : m.keys.Pairwise fun a b => compare a b = .lt :=
  List.pairwise_map.2 m.ascending

theorem isEmpty_iff_keys (m : OrderedMap κ α) : m.isEmpty = true ↔ m.keys = [] := by
  simp [isEmpty, keys]

/-- The entries that pass a test. -/
def filter (m : OrderedMap κ α) (p : κ → α → Bool) : OrderedMap κ α :=
  ⟨m.entries.filter fun e => p e.1 e.2, m.ascending.sublist List.filter_sublist⟩

@[simp]
theorem filter_filter (m : OrderedMap κ α) (p : κ → α → Bool) :
    (m.filter p).filter p = m.filter p := by
  simp [filter, List.filter_filter]

variable [Std.TransOrd κ]

theorem compare_self_ne_lt (key : κ) : compare key key ≠ .lt := by
  simp

@[simp]
theorem nodup_keys (m : OrderedMap κ α) : m.keys.Nodup := by
  refine m.keys_ascending.imp fun {a b} hlt heq => ?_
  subst heq
  exact compare_self_ne_lt a hlt

variable [Std.LawfulEqOrd κ]

theorem lookup_eq_some_iff {l : List (κ × α)}
    (h : l.Pairwise fun a b => compare a.1 b.1 = .lt) (key : κ) (a : α) :
    lookup key l = some a ↔ (key, a) ∈ l := by
  induction l with
  | nil => simp [lookup]
  | cons e rest ih =>
      obtain ⟨k, b⟩ := e
      obtain ⟨hhead, hrest⟩ := List.pairwise_cons.1 h
      simp only [lookup, List.mem_cons]
      by_cases hkey : compare key k = .eq
      · obtain rfl : key = k := Std.LawfulEqOrd.compare_eq_iff_eq.1 hkey
        have habsent : (key, a) ∉ rest := fun ha => compare_self_ne_lt key (hhead _ ha)
        simp [habsent, eq_comm]
      · have hne : key ≠ k := fun he => hkey (Std.LawfulEqOrd.compare_eq_iff_eq.2 he)
        simp [hne, ih hrest]

theorem find?_eq_some_iff (m : OrderedMap κ α) (key : κ) (a : α) :
    m.find? key = some a ↔ (key, a) ∈ m.entries :=
  lookup_eq_some_iff m.ascending key a

theorem mem_keys_iff (m : OrderedMap κ α) (key : κ) : key ∈ m.keys ↔ ∃ a, m.find? key = some a := by
  simp [keys, find?_eq_some_iff]

@[simp]
theorem contains_iff_mem_keys (m : OrderedMap κ α) (key : κ) :
    m.contains key = true ↔ key ∈ m.keys := by
  rw [mem_keys_iff, contains, Option.isSome_iff_exists]

/-- Maps that are looked up alike are equal. -/
theorem ext_find? {m n : OrderedMap κ α} (h : ∀ key, m.find? key = n.find? key) : m = n := by
  have hmem : ∀ e : κ × α, e ∈ m.entries ↔ e ∈ n.entries := by
    intro e
    rw [← find?_eq_some_iff m e.1 e.2, ← find?_eq_some_iff n e.1 e.2, h]
  have hnodup : ∀ o : OrderedMap κ α, o.entries.Nodup := by
    intro o
    refine o.ascending.imp fun {a b} hlt heq => ?_
    subst heq
    exact compare_self_ne_lt a.1 hlt
  have hperm : m.entries.Perm n.entries :=
    (List.perm_ext_iff_of_nodup (hnodup m) (hnodup n)).2 hmem
  have hentries : m.entries = n.entries := by
    refine hperm.eq_of_pairwise (fun a b _ _ hab hba => ?_) m.ascending n.ascending
    exact absurd (Std.TransCmp.lt_trans hab hba) (compare_self_ne_lt a.1)
  cases m
  cases n
  simpa using hentries

@[simp]
theorem find?_filter (m : OrderedMap κ α) (p : κ → α → Bool) (key : κ) :
    (m.filter p).find? key = (m.find? key).filter (p key) := by
  apply Option.ext
  intro a
  rw [Option.filter_eq_some_iff, find?_eq_some_iff, find?_eq_some_iff, filter, List.mem_filter]

variable [DecidableEq κ]

@[simp]
theorem find?_alter_of_eq (m : OrderedMap κ α) (key : κ) (f : Option α → α) (j : κ) :
    (m.alter key f).find? j = if j = key then some (f (m.find? key)) else m.find? j := by
  simp only [find?_alter, Std.LawfulEqOrd.compare_eq_iff_eq]

@[simp]
theorem find?_insert (m : OrderedMap κ α) (key : κ) (a : α) (j : κ) :
    (m.insert key a).find? j = if j = key then some a else m.find? j :=
  find?_alter_of_eq m key (fun _ => a) j

@[simp]
theorem mem_keys_alter (m : OrderedMap κ α) (key : κ) (f : Option α → α) (j : κ) :
    j ∈ (m.alter key f).keys ↔ j = key ∨ j ∈ m.keys := by
  rw [mem_keys_iff, mem_keys_iff, find?_alter_of_eq]
  by_cases h : j = key <;> simp [h]

theorem mem_keys_foldl_insert (entries : List (κ × α)) (m : OrderedMap κ α) (key : κ) :
    key ∈ (entries.foldl (fun m e => m.insert e.1 e.2) m).keys ↔
      key ∈ m.keys ∨ key ∈ entries.map (·.1) := by
  induction entries generalizing m with
  | nil => simp
  | cons e rest ih =>
      rw [List.foldl_cons, ih, insert, mem_keys_alter, List.map_cons, List.mem_cons]
      grind

@[simp]
theorem mem_keys_ofList (entries : List (κ × α)) (key : κ) :
    key ∈ (ofList entries).keys ↔ key ∈ entries.map (·.1) := by
  rw [ofList, mem_keys_foldl_insert]
  simp [keys, empty]

theorem mem_of_find?_foldl_insert {entries : List (κ × α)} {m : OrderedMap κ α} {key : κ} {a : α}
    (h : (entries.foldl (fun m e => m.insert e.1 e.2) m).find? key = some a) :
    m.find? key = some a ∨ (key, a) ∈ entries := by
  induction entries generalizing m with
  | nil => exact .inl h
  | cons e rest ih =>
      rcases ih h with hfound | hmem
      · rw [find?_insert] at hfound
        split at hfound
        · rename_i hkey
          have he : e = (key, a) := Prod.ext hkey.symm (Option.some.inj hfound)
          exact .inr (he ▸ List.mem_cons_self)
        · exact .inl hfound
      · exact .inr (List.mem_cons_of_mem e hmem)

/-- What a map built from entries holds is one of them. -/
theorem mem_of_find?_ofList {entries : List (κ × α)} {key : κ} {a : α}
    (h : (ofList entries).find? key = some a) : (key, a) ∈ entries := by
  rcases mem_of_find?_foldl_insert h with hempty | hmem
  · simp at hempty
  · exact hmem

/-- Where the value follows from the key, a map built from entries holds it for
their keys and for no others. -/
theorem find?_ofList_eq_some_iff {entries : List (κ × α)} {f : κ → α}
    (h : ∀ e ∈ entries, e.2 = f e.1) (key : κ) (a : α) :
    (ofList entries).find? key = some a ↔ key ∈ entries.map (·.1) ∧ a = f key := by
  constructor
  · intro hfound
    have hmem := mem_of_find?_ofList hfound
    exact ⟨List.mem_map.2 ⟨(key, a), hmem, rfl⟩, h _ hmem⟩
  · intro hentry
    obtain ⟨hkey, rfl⟩ := hentry
    obtain ⟨b, hb⟩ := (mem_keys_iff _ key).1 ((mem_keys_ofList entries key).2 hkey)
    have hvalue : b = f key := h (key, b) (mem_of_find?_ofList hb)
    rw [hb, hvalue]

/-- The entries of a map build it again. -/
@[simp]
theorem ofList_entries (m : OrderedMap κ α) : ofList m.entries = m := by
  refine ext_find? fun key => ?_
  cases hfound : (ofList m.entries).find? key with
  | some a => exact ((find?_eq_some_iff m key a).2 (mem_of_find?_ofList hfound)).symm
  | none =>
      have habsent : key ∉ m.keys := by
        intro hkey
        obtain ⟨a, ha⟩ := (mem_keys_iff _ key).1 ((mem_keys_ofList m.entries key).2 hkey)
        rw [hfound] at ha
        cases ha
      cases hfind : m.find? key with
      | none => rfl
      | some a => exact absurd ((mem_keys_iff m key).2 ⟨a, hfind⟩) habsent

end Coverage.OrderedMap
