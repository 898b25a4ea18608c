import Coverage.Proofs.Filter
import Coverage.Proofs.Path.Place

/-!
How ignored paths may be spelled. A path is ignored if its absolute form goes through an ignored
one, component by component. Dots do not count, but climbs do: they are not carried out, so a
file is only recognized by a spelling that climbs in the same places. Where two spellings agree
on their climbs, comparing them is comparing the places that they denote.
-/
namespace Coverage.Filter

open FileTree (descend foldl_descend_names)

/-- The components that a path is compared by: those of its absolute form, climbs included. The
empty path has no absolute form and stands for itself. -/
def spelled (directory p : Path) : List Component :=
  if p.bytes = [] then [] else (directory.join p).components

/-- Two spellings are the same up to a point behind which neither climbs. -/
def ClimbAlike (first second : List Component) : Prop :=
  ∃ shared a b, shared ≠ [] ∧ first = shared ++ a ∧ second = shared ++ b ∧ .up ∉ a ∧ .up ∉ b

theorem components_absolute_eq_spelled {directory : Path} (h : directory.isAbsolute = true)
    (p : Path) : (p.absolute directory).components = spelled directory p := by
  rw [spelled]
  split
  · rename_i hbytes
    exact Path.components_absolute_empty ((p.bytes_eq_nil_iff).1 hbytes) directory
  · rename_i hbytes
    rw [Path.components_absolute (fun hnil => hbytes ((p.bytes_eq_nil_iff).2 hnil))]
    by_cases hp : p.isAbsolute = true
    · rw [if_pos hp, Path.join_of_isAbsolute directory hp, Path.components_of_isAbsolute hp]
      rfl
    · rw [Bool.not_eq_true] at hp
      rw [hp, Path.components_join_of_ne (Path.bytes_ne_of_isAbsolute h) hp]
      rfl

/-- Spellings without climbs share the root. -/
theorem climbAlike_of_not_climbing {directory p q : Path} (h : directory.isAbsolute = true)
    (hp : .up ∉ (directory.join p).components) (hq : .up ∉ (directory.join q).components) :
    ClimbAlike (directory.join p).components (directory.join q).components := by
  have hroot := Path.components_of_isAbsolute (Path.isAbsolute_join h p)
  have hroot' := Path.components_of_isAbsolute (Path.isAbsolute_join h q)
  rw [hroot, List.mem_cons, not_or] at hp
  rw [hroot', List.mem_cons, not_or] at hq
  exact ⟨[.root], _, _, List.cons_ne_nil _ _, hroot, hroot', hp.2, hq.2⟩

/-- Spellings that climb alike are compared as the places that they denote. -/
theorem isPrefix_iff_place {p q : Path} (hp : p.isAbsolute = true) (hq : q.isAbsolute = true)
    (h : ClimbAlike p.components q.components) :
    p.components <+: q.components ↔ p.place <+: q.place := by
  obtain ⟨shared, a, b, hshared, hfirst, hsecond, ha, hb⟩ := h
  obtain ⟨above, rfl⟩ := Path.exists_names (Path.isInner_of_isAbsolute hp hshared hfirst) ha
  obtain ⟨below, rfl⟩ := Path.exists_names (Path.isInner_of_isAbsolute hq hshared hsecond) hb
  rw [Path.place, Path.place, hfirst, hsecond, List.foldl_append, List.foldl_append,
    foldl_descend_names, foldl_descend_names, List.prefix_append_right_inj,
    List.prefix_append_right_inj, List.prefix_map_iff_of_injective Path.name_injective]

/-- Just those paths become ignored that are spelled as an ignored one or below it. If the two
spellings climb alike, these are the paths that denote its place or one below. -/
theorem isIgnored_ignoring (f : Filter) {directory : Path}
    (hdirectory : directory.isAbsolute = true) (paths : List Path) (q : Path) :
    ((f.ignoring directory paths).isIgnored directory q = true ↔
      f.isIgnored directory q = true ∨
        ∃ p ∈ paths, spelled directory p <+: spelled directory q) ∧
    ∀ p : Path, p.bytes ≠ [] → q.bytes ≠ [] →
      ClimbAlike (spelled directory p) (spelled directory q) →
        (spelled directory p <+: spelled directory q ↔
          (directory.join p).place <+: (directory.join q).place) := by
  constructor
  · simp only [isIgnored, ignoring, List.any_append, Bool.or_eq_true, List.any_map,
      List.any_eq_true, Function.comp_apply, Path.startsWith, List.isPrefixOf_iff_prefix,
      components_absolute_eq_spelled hdirectory]
  · intro p hp hq halike
    rw [spelled, spelled, if_neg hp, if_neg hq] at halike ⊢
    exact isPrefix_iff_place (Path.isAbsolute_join hdirectory p)
      (Path.isAbsolute_join hdirectory q) halike

def workshop : Path := "/home/work"

/-- A directory within, spelled without climbs, a sibling directory, spelled with one in either
path, and a name that only looks alike. -/
theorem isIgnored_ignoring_sibling :
    workshop.isAbsolute = true ∧
      (all.ignoring workshop ["src"]).isIgnored workshop "./src//a.js" = true ∧
      (all.ignoring workshop ["../lib"]).isIgnored workshop "./../lib//x.js" = true ∧
      (all.ignoring workshop ["../lib"]).isIgnored workshop "../library.js" = false ∧
      (workshop.join "../lib").place <+: (workshop.join "./../lib//x.js").place := by
  have hworkshop : workshop.isAbsolute = true := by decide +kernel
  have hwithin := isIgnored_ignoring all hworkshop ["src"] "./src//a.js"
  have hplain : ClimbAlike (spelled workshop "src") (spelled workshop "./src//a.js") := by
    rw [spelled, spelled, if_neg (by decide +kernel), if_neg (by decide +kernel)]
    exact climbAlike_of_not_climbing hworkshop (by decide +kernel) (by decide +kernel)
  have hplace : (workshop.join "src").place <+: (workshop.join "./src//a.js").place := by
    decide +kernel
  have hbelow := (hwithin.2 "src" (by decide +kernel) (by decide +kernel) hplain).2 hplace
  have hsibling := isIgnored_ignoring all hworkshop ["../lib"] "./../lib//x.js"
  have halike : ClimbAlike (spelled workshop "../lib") (spelled workshop "./../lib//x.js") :=
    ⟨[.root, .name (Text.bytes "home"), .name (Text.bytes "work"), .up], [.name (Text.bytes "lib")],
      [.name (Text.bytes "lib"), .name (Text.bytes "x.js")],
      by decide +kernel, by decide +kernel, by decide +kernel, by decide +kernel, by decide +kernel⟩
  have hspelled : spelled workshop "../lib" <+: spelled workshop "./../lib//x.js" := by
    decide +kernel
  refine ⟨hworkshop, hwithin.1.2 (.inr ⟨_, List.mem_singleton_self _, hbelow⟩),
    hsibling.1.2 (.inr ⟨_, List.mem_singleton_self _, hspelled⟩), by decide +kernel, ?_⟩
  exact (hsibling.2 _ (by decide +kernel) (by decide +kernel) halike).1 hspelled

/-- A climb hides a file below an ignored directory, and drops one that is beside it; the empty
path has everything below it. -/
theorem isIgnored_climbing :
    ((all.ignoring workshop ["src"]).isIgnored workshop "cov/../src/a.js" = false ∧
      (workshop.join "src").place <+: (workshop.join "cov/../src/a.js").place) ∧
    ((all.ignoring workshop ["src"]).isIgnored workshop "src/../lib/b.js" = true ∧
      ¬ (workshop.join "src").place <+: (workshop.join "src/../lib/b.js").place) ∧
    (all.ignoring workshop [""]).isIgnored workshop "/other/c.js" = true ∧
      ¬ (workshop.join "").place <+: (workshop.join "/other/c.js").place := by
  decide +kernel

end Coverage.Filter
