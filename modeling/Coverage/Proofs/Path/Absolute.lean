import Coverage.Proofs.Path.Below

/-!
Absolute forms. The absolute form of a path begins at the root or with the working
directory and goes on with the path's names and climbs, so it lengthens as the path
does. The empty path is its own absolute form.
-/
namespace Coverage.Path

theorem components_foldl_join (base : Path) {parts : List Component} (h : ∀ c ∈ parts, c.IsInner) :
    (parts.foldl (fun q c => q.join ⟨c.bytes⟩) base).components = base.components ++ parts := by
  induction parts generalizing base with
  | nil => simp
  | cons c rest ih =>
      rw [List.foldl_cons, ih (base.join ⟨c.bytes⟩) fun d hd => h d (List.mem_cons_of_mem c hd),
        components_join_inner base (h c List.mem_cons_self), List.append_assoc]
      rfl

theorem components_join_empty (p : Path) : (p.join ⟨[]⟩).components = p.components := by
  rw [components_join]
  split
  · rename_i h
    exact (h.resolve_left Bool.false_ne_true).symm
  · rw [inner_empty, List.append_nil]

theorem components_anchor (p directory : Path) :
    (anchor p directory).components = if p.isAbsolute then [.root] else directory.components := by
  rw [anchor]
  split
  · split <;> rfl
  · rfl

/-- The absolute form has no dots, and its climbs stay. -/
theorem components_absolute {p : Path} (h : p.components ≠ []) (directory : Path) :
    (p.absolute directory).components =
      (if p.isAbsolute then [.root] else directory.components) ++ p.inner := by
  have hbytes : p.bytes ≠ [] := fun hempty => h ((bytes_eq_nil_iff p).1 hempty)
  have hparts := components_foldl_join (anchor p directory) fun _ => isInner_of_mem_inner (p := p)
  rw [components_anchor] at hparts
  rw [absolute, absolute?, if_neg hbytes, Option.getD_some]
  split
  · rw [components_join_empty, hparts]
  · exact hparts

theorem components_absolute_empty {p : Path} (h : p.components = []) (directory : Path) :
    (p.absolute directory).components = [] := by
  rw [absolute, absolute?, if_pos ((bytes_eq_nil_iff p).2 h), Option.getD_none, h]

theorem absolute_congr {p q : Path} (h : p.components = q.components) (directory : Path) :
    (p.absolute directory).components = (q.absolute directory).components := by
  by_cases hp : p.components = []
  · rw [components_absolute_empty hp, components_absolute_empty (h ▸ hp)]
  · rw [components_absolute hp, components_absolute (h ▸ hp), isAbsolute_congr h, inner_congr h]

end Coverage.Path
