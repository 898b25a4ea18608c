import Coverage.Proofs.Path

/-!
Lists of paths in path order. In a strictly ascending list no two paths have the same
components, so such a list is given by its members; sorting a list makes it ascend,
and paths of the same components keep the order they had.
-/
namespace Coverage.Path

/-- In path order, and no components twice. -/
abbrev Ascending (paths : List Path) : Prop := paths.Pairwise fun p q => compare p q = .lt

/-- The paths have the same components. -/
abbrev same (p q : Path) : Bool := compare p q == .eq

@[simp]
theorem same_iff (p q : Path) : p.same q = true ↔ p.components = q.components := by
  rw [same, beq_iff_eq, compare_eq_iff]

theorem le_trans (p q r : Path) (hpq : p.le q = true) (hqr : q.le r = true) : p.le r = true :=
  Std.TransCmp.isLE_trans hpq hqr

/-- Of two elements one may stand before the other. -/
theorem isLE_total {α : Type} (cmp : α → α → Ordering) [Std.OrientedCmp cmp] (a b : α) :
    ((cmp a b).isLE || (cmp b a).isLE) = true := by
  have hswap : cmp b a = (cmp a b).swap := Std.OrientedCmp.eq_swap
  rw [hswap]
  cases cmp a b <;> rfl

theorem le_total (p q : Path) : (p.le q || q.le p) = true := isLE_total compare p q

theorem lt_of_le_of_ne {p q : Path} (hle : p.le q = true) (hne : p.components ≠ q.components) :
    compare p q = .lt := by
  rcases Ordering.isLE_iff_eq_lt_or_eq_eq.1 hle with hlt | heq
  · exact hlt
  · exact absurd ((compare_eq_iff p q).1 heq) hne

/-- Strictly ascending lists of the same members are equal. -/
theorem eq_of_pairwise_lt {α : Type} [Ord α] [Std.TransOrd α] {l m : List α}
    (hl : l.Pairwise fun a b => compare a b = .lt) (hm : m.Pairwise fun a b => compare a b = .lt)
    (hmem : ∀ a, a ∈ l ↔ a ∈ m) : l = m := by
  have hself : ∀ a : α, compare a a ≠ .lt := fun a => by simp
  have hnodup : ∀ {n : List α}, (n.Pairwise fun a b => compare a b = .lt) → n.Nodup := by
    intro n hn
    refine hn.imp fun {a b} hlt heq => ?_
    exact hself a (heq ▸ hlt)
  have hperm : l.Perm m := (List.perm_ext_iff_of_nodup (hnodup hl) (hnodup hm)).2 hmem
  refine hperm.eq_of_pairwise (fun a b _ _ hab hba => ?_) hl hm
  exact absurd (Std.TransCmp.lt_trans hab hba) (hself a)

theorem Ascending.ext {paths others : List Path} (h : Ascending paths) (h' : Ascending others)
    (hmem : ∀ p, p ∈ paths ↔ p ∈ others) : paths = others :=
  eq_of_pairwise_lt h h' hmem

/-- Ascending lists that hold the same components pair off. -/
theorem Ascending.map_components_eq {paths others : List Path} (h : Ascending paths)
    (h' : Ascending others) (hmem : ∀ c, c ∈ paths.map components ↔ c ∈ others.map components) :
    paths.map components = others.map components :=
  eq_of_pairwise_lt (List.pairwise_map.2 h) (List.pairwise_map.2 h') hmem

theorem pairwise_le_mergeSort (paths : List Path) :
    (paths.mergeSort le).Pairwise fun p q => p.le q = true :=
  List.pairwise_mergeSort le_trans le_total paths

/-- Of paths that differ in their components, sorting leaves an ascending list. -/
theorem ascending_mergeSort {paths : List Path}
    (h : paths.Pairwise fun p q => p.components ≠ q.components) :
    Ascending (paths.mergeSort le) := by
  have hne : (paths.mergeSort le).Pairwise fun p q => p.components ≠ q.components :=
    (paths.mergeSort_perm le).symm.pairwise h fun hpq => Ne.symm hpq
  exact ((pairwise_le_mergeSort paths).and hne).imp fun hand => lt_of_le_of_ne hand.1 hand.2

/-- Sorting leaves elements that the order does not tell apart as they stood. -/
theorem filter_mergeSort {α : Type} {le : α → α → Bool}
    (trans : ∀ a b c, le a b = true → le b c = true → le a c = true)
    (total : ∀ a b, (le a b || le b a) = true) {p : α → Bool}
    (h : ∀ a b, p a = true → p b = true → le a b = true) (l : List α) :
    (l.mergeSort le).filter p = l.filter p := by
  have hle : (l.filter p).Pairwise fun a b => le a b = true := by
    refine List.Pairwise.imp_of_mem (R := fun _ _ => True) (fun {a b} ha hb _ => ?_)
      (List.pairwise_of_forall fun _ _ => trivial)
    exact h a b (List.mem_filter.1 ha).2 (List.mem_filter.1 hb).2
  have hsub : (l.filter p).Sublist ((l.mergeSort le).filter p) := by
    have hsorted := (List.sublist_mergeSort trans total hle List.filter_sublist).filter p
    simpa using hsorted
  have hlength : (l.filter p).length = ((l.mergeSort le).filter p).length :=
    ((l.mergeSort_perm le).filter p).symm.length_eq
  exact (hsub.eq_of_length hlength).symm

/-- Sorting does not change which path of given components comes first. -/
theorem find?_mergeSort (paths : List Path) (p : Path) :
    (paths.mergeSort le).find? p.same = paths.find? p.same := by
  have hle : ∀ q r : Path, p.same q = true → p.same r = true → q.le r = true := by
    intro q r hq hr
    have hsame := ((same_iff p q).1 hq).symm.trans ((same_iff p r).1 hr)
    rw [le, (compare_eq_iff q r).2 hsame]
    rfl
  rw [← List.head?_filter, ← List.head?_filter, filter_mergeSort le_trans le_total hle]

end Coverage.Path
