import Coverage.Filter
import Coverage.Proofs.Path.Absolute

/-!
What a filter ignores. Whether a path is ignored depends on its components, and what
lies below an ignored path is ignored too.
-/
namespace Coverage.Filter

open Component (IsName)

theorem isIgnored_congr (f : Filter) (directory : Path) {p q : Path}
    (h : p.components = q.components) : f.isIgnored directory p = f.isIgnored directory q := by
  simp only [isIgnored, Path.startsWith, Path.absolute_congr h directory]

theorem components_absolute_under {p : Path} (h : p.components ≠ []) (directory : Path)
    {names : List Bytes} (hnames : ∀ name ∈ names, IsName name) :
    ((p.under names).absolute directory).components =
      (p.absolute directory).components ++ names.map .name := by
  have hne : (p.under names).components ≠ [] := by
    rw [p.components_under hnames]
    exact List.append_ne_nil_of_left_ne_nil h _
  rw [Path.components_absolute hne, Path.components_absolute h, Path.isAbsolute_under h hnames,
    Path.inner_under p hnames, List.append_assoc]

theorem isIgnored_under {f : Filter} {directory p : Path} (h : p.components ≠ [])
    {names : List Bytes} (hnames : ∀ name ∈ names, IsName name)
    (hignored : f.isIgnored directory p = true) :
    f.isIgnored directory (p.under names) = true := by
  obtain ⟨ignored, hmem, hprefix⟩ := List.any_eq_true.1 hignored
  refine List.any_eq_true.2 ⟨ignored, hmem, ?_⟩
  rw [Path.startsWith, List.isPrefixOf_iff_prefix] at hprefix ⊢
  rw [components_absolute_under h directory hnames]
  exact hprefix.trans (List.prefix_append _ _)

theorem isIgnored_of_acceptsBy {fits : Glob → String → Bool} {f : Filter} {directory p : Path}
    (h : f.acceptsBy fits directory p = true) : f.isIgnored directory p = false := by
  simp only [acceptsBy, Bool.and_eq_true, Bool.not_eq_true'] at h
  exact h.1.1.2

end Coverage.Filter
