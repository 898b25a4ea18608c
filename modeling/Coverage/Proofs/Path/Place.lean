import Coverage.Proofs.FileTree
import Mathlib.Data.List.Induction

/-!
Places that absolute paths denote: dots are left out and climbs carried out, name by name from
the root. In a tree without links this is where a path leads, if it leads anywhere. A climb out
of a name gives back the place that the name was entered from.
-/
namespace Coverage.Path

open Component (IsName IsInner)
open FileTree (descend foldl_descend_names)

/-- The names on the way from the root to what an absolute path denotes. -/
def place (p : Path) : Place := p.components.foldl descend []

/-- Behind the root an absolute path has names and climbs only. -/
theorem components_of_isAbsolute {p : Path} (h : p.isAbsolute = true) :
    p.components = .root :: p.inner := by
  rcases p.front_cases with rfl | ⟨b, rfl⟩ | ⟨hhead, -⟩
  · cases h
  · have hinner : inner ⟨slash :: b⟩ = inner ⟨b⟩ := by
      rw [inner, components_slash_cons, List.filter_cons_of_neg (by decide)]
      refine List.filter_eq_self.2 fun c hc => ?_
      simpa using (isInner_of_mem_inner hc).ne
    rw [components_slash_cons, hinner]
  · exact absurd ((isAbsolute_iff p).1 h) hhead

theorem bytes_ne_of_isAbsolute {p : Path} (h : p.isAbsolute = true) : p.bytes ≠ [] := by
  rw [ne_eq, bytes_eq_nil_iff, components_of_isAbsolute h]
  exact List.cons_ne_nil _ _

theorem isInner_of_isAbsolute {p : Path} (h : p.isAbsolute = true) {shared rest : List Component}
    (hshared : shared ≠ []) (hsplit : p.components = shared ++ rest) :
    ∀ c ∈ rest, c.IsInner := by
  intro c hc
  obtain ⟨first, more, rfl⟩ := List.exists_cons_of_ne_nil hshared
  rw [components_of_isAbsolute h, List.cons_append] at hsplit
  have hmem : c ∈ p.inner := by
    rw [(List.cons.inj hsplit).2]
    exact List.mem_append_right more hc
  exact isInner_of_mem_inner hmem

/-- Without climbs only names are left. -/
theorem exists_names {parts : List Component} (h : ∀ c ∈ parts, c.IsInner) (hup : .up ∉ parts) :
    ∃ names : List Bytes, parts = names.map Component.name := by
  induction parts with
  | nil => exact ⟨[], rfl⟩
  | cons c rest ih =>
      rw [List.mem_cons, not_or] at hup
      obtain ⟨names, rfl⟩ := ih (fun d hd => h d (List.mem_cons_of_mem c hd)) hup.2
      cases h c List.mem_cons_self with
      | up => exact absurd rfl hup.1
      | @name bytes _ => exact ⟨bytes :: names, rfl⟩

/-- As many climbs as names lead back to where the names began. -/
theorem foldl_descend_up (place names : Place) :
    (List.replicate names.length Component.up).foldl descend (place ++ names) = place := by
  induction names using List.reverseRecOn with
  | nil => simp
  | append_singleton names name ih =>
      rw [List.length_append, List.length_singleton, List.replicate_succ, List.foldl_cons]
      have hclimb : descend (place ++ (names ++ [name])) .up = place ++ names := by
        rw [← List.append_assoc]
        exact List.dropLast_concat
      rw [hclimb, ih]

theorem name_injective : Function.Injective Component.name := fun _ _ h => Component.name.inj h

/-- A path without climbs is given back by the place that it denotes. -/
theorem components_of_not_climbing {p : Path} (h : p.isAbsolute = true)
    (hup : .up ∉ p.components) : p.components = .root :: p.place.map .name := by
  have hcomponents := components_of_isAbsolute h
  rw [hcomponents, List.mem_cons, not_or] at hup
  obtain ⟨names, hnames⟩ := exists_names (fun _ => isInner_of_mem_inner (p := p)) hup.2
  rw [hnames] at hcomponents
  have hplace : p.place = names := by
    rw [place, hcomponents, List.foldl_cons, foldl_descend_names]
    rfl
  rw [hplace, hcomponents]

end Coverage.Path
