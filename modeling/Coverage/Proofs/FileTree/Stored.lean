import Coverage.Proofs.FileTree
import Mathlib.Data.List.Induction

/-!
Trees as they are stored. Whatever stands in such a tree stands in a directory, up to the top, so
the names of a file lead to it from every directory above it; and a path that goes on by these
names behind a path of the directory is a path of the file, as long as it is not too long.
-/
namespace Coverage

open Component (IsName)

namespace FileTree

/-- Every entry stands in a directory, under names that can be stored. -/
structure IsStored (t : FileTree) : Prop where
  top : ∀ e ∈ t.entries.entries, e.1 ≠ []
  above : ∀ e ∈ t.entries.entries, t.isDirectory e.1.dropLast = true
  names : ∀ e ∈ t.entries.entries, ∀ name ∈ e.1, 0 ∉ name ∧ name.length ≤ maxNameBytes

namespace IsStored

variable {t : FileTree} (h : t.IsStored)

include h

theorem ne_nil_of_find? {place : Place} {entry : Entry} (hfound : t.find? place = some entry) :
    place ≠ [] :=
  h.top _ ((OrderedMap.find?_eq_some_iff t.entries place entry).1 hfound)

theorem storable_of_find? {place : Place} {entry : Entry} (hfound : t.find? place = some entry) :
    ∀ name ∈ place, 0 ∉ name ∧ name.length ≤ maxNameBytes :=
  h.names _ ((OrderedMap.find?_eq_some_iff t.entries place entry).1 hfound)

/-- All places above an entry are directories. -/
theorem isDirectory_above {place below : Place} {entry : Entry}
    (hfound : t.find? (place ++ below) = some entry) (hne : below ≠ []) :
    t.isDirectory place = true := by
  induction below using List.reverseRecOn generalizing entry with
  | nil => exact absurd rfl hne
  | append_singleton body name ih =>
      have hnext := h.above _ ((OrderedMap.find?_eq_some_iff t.entries _ entry).1 hfound)
      rw [← List.append_assoc, List.dropLast_concat] at hnext
      by_cases hbody : body = []
      · rwa [hbody, List.append_nil] at hnext
      · have hentry := ((t.isDirectory_iff _).1 hnext).resolve_left
          (List.append_ne_nil_of_right_ne_nil place hbody)
        exact ih hentry hbody

theorem exists_of_prefix {place below : Place} {name : Bytes} {entry : Entry}
    (hfound : t.find? (place ++ name :: below) = some entry) :
    ∃ held, t.find? (place ++ [name]) = some held := by
  by_cases hbelow : below = []
  · exact ⟨entry, by rw [← hfound, hbelow]⟩
  · have hnext : t.find? (place ++ [name] ++ below) = some entry := by
      rw [← hfound, List.append_assoc]
      rfl
    have hdirectory := h.isDirectory_above hnext hbelow
    exact ⟨_, ((t.isDirectory_iff _).1 hdirectory).resolve_left (by simp)⟩

end IsStored

namespace IsPlain

variable {t : FileTree} (h : t.IsPlain)

include h

/-- A path is followed piece by piece. -/
theorem follow_append (links : Nat) (place : Place) (before after : List Bytes) :
    t.follow links place (before ++ after) =
      (t.follow links place before).bind fun reached => t.follow links reached after := by
  induction before generalizing place with
  | nil =>
      have hend : t.follow links place [] = .ok place := by rw [follow]
      rw [hend]
      rfl
  | cons segment rest ih =>
      rw [List.cons_append, follow.eq_def t links place (segment :: (rest ++ after)),
        follow.eq_def t links place (segment :: rest)]
      dsimp only
      by_cases hdirectory : (!t.isDirectory place) = true
      · rw [if_pos hdirectory, if_pos hdirectory]
        rfl
      rw [if_neg hdirectory, if_neg hdirectory]
      by_cases hskipped : segment = [] ∨ segment = [dot]
      · rw [if_pos hskipped, if_pos hskipped, ih]
      rw [if_neg hskipped, if_neg hskipped]
      by_cases hup : segment = [dot, dot]
      · rw [if_pos hup, if_pos hup, ih]
      rw [if_neg hup, if_neg hup]
      by_cases hlength : maxNameBytes < segment.length
      · rw [if_pos hlength, if_pos hlength]
        rfl
      rw [if_neg hlength, if_neg hlength]
      cases hfound : t.find? (place ++ [segment]) with
      | none => rfl
      | some entry =>
          cases entry with
          | link target => exact absurd hfound (h.find?_ne_link _ target)
          | file content => exact ih _
          | directory => exact ih _

/-- An empty piece at the end asks for the directory that was reached. -/
theorem follow_of_trailing {links : Nat} {place reached : Place} {before : List Bytes}
    (hfollow : t.follow links place (before ++ [[]]) = .ok reached) :
    t.follow links place before = .ok reached := by
  rw [h.follow_append] at hfollow
  cases hmiddle : t.follow links place before with
  | error why =>
      rw [hmiddle] at hfollow
      cases hfollow
  | ok middle =>
      rw [hmiddle] at hfollow
      obtain ⟨-, ⟨-, hlast⟩ | ⟨hup, -⟩ | ⟨hname, -⟩⟩ := h.follow_cons hfollow
      · rw [← hlast, follow]
      · cases hup
      · exact absurd rfl hname.2.1

/-- From a directory above it an entry's names lead to it. -/
theorem follow_names (hstored : t.IsStored) {place names : Place} {entry : Entry}
    (hdirectory : t.isDirectory place = true) (hfound : t.find? (place ++ names) = some entry)
    (links : Nat) : t.follow links place names = .ok (place ++ names) := by
  induction names generalizing place with
  | nil => rw [follow, List.append_nil]
  | cons name below ih =>
      obtain ⟨held, hheld⟩ := hstored.exists_of_prefix hfound
      have hmem : name ∈ place ++ [name] := List.mem_append_right place List.mem_cons_self
      have hname := h.isName_of_find? hheld hmem
      have hlength := (hstored.storable_of_find? hheld name hmem).2
      have hlink : ∀ target, held ≠ .link target := fun target hlink =>
        h.find?_ne_link _ target (hlink ▸ hheld)
      rw [follow_name hdirectory hname hlength hheld hlink]
      by_cases hbelow : below = []
      · rw [hbelow, follow]
      · have hnext : t.find? (place ++ [name] ++ below) = some entry := by
          rw [← hfound, List.append_assoc]
          rfl
        rw [ih (hstored.isDirectory_above hnext hbelow) hnext, List.append_assoc]
        rfl

end IsPlain

end FileTree

namespace Path

theorem mem_bytes_join {base p : Path} {b : UInt8} (h : b ∈ (base.join p).bytes) :
    b ∈ base.bytes ∨ b = slash ∨ b ∈ p.bytes := by
  rw [join] at h
  split at h
  · exact .inr (.inr h)
  · split at h
    · exact (List.mem_append.1 h).imp_right .inr
    · rwa [List.mem_append, List.mem_cons] at h

theorem zero_not_mem_under {root : Path} (hroot : 0 ∉ root.bytes) {names : List Bytes}
    (h : ∀ name ∈ names, 0 ∉ name) : 0 ∉ (root.under names).bytes := by
  induction names generalizing root with
  | nil => exact hroot
  | cons name rest ih =>
      have hjoin : 0 ∉ (root.join ⟨name⟩).bytes := fun hmem => by
        rcases mem_bytes_join hmem with hbase | hslash | hname
        · exact hroot hbase
        · cases hslash
        · exact h name List.mem_cons_self hname
      exact ih hjoin fun n hn => h n (List.mem_cons_of_mem name hn)

end Path

namespace Workspace

variable {w : Workspace}

theorem zero_not_mem_of_resolve {p : Path} {place : Place} (h : w.resolve p = .ok place) :
    0 ∉ p.bytes := by
  intro hmem
  rw [resolve, if_pos (by simpa using hmem)] at h
  cases h

variable (hplain : w.tree.IsPlain) (hstored : w.tree.IsStored)

include hplain hstored

/-- A path that goes on by an entry's names behind a path of a directory leads to the entry. -/
theorem resolve_under {root : Path} {place : Place} (hroot : w.resolve root = .ok place)
    (hdirectory : w.tree.isDirectory place = true) {names : List Bytes} {entry : Entry}
    (hfound : w.tree.find? (place ++ names) = some entry) (hne : names ≠ [])
    (hlength : (root.under names).bytes.length ≤ FileTree.maxPathBytes) :
    w.resolve (root.under names) = .ok (place ++ names) := by
  obtain ⟨hbytes, hfollow⟩ := follow_of_resolve hroot
  have hcomponents : root.components ≠ [] := fun h => hbytes ((root.bytes_eq_nil_iff).2 h)
  have hnames : ∀ name ∈ names, IsName name := fun name hname =>
    hplain.isName_of_find? hfound (List.mem_append_right place hname)
  have hnul : 0 ∉ (root.under names).bytes :=
    Path.zero_not_mem_under (zero_not_mem_of_resolve hroot) fun name hname =>
      (hstored.storable_of_find? hfound name (List.mem_append_right place hname)).1
  have hunder : (root.under names).bytes ≠ [] := by
    rw [ne_eq, Path.bytes_eq_nil_iff, root.components_under hnames]
    exact List.append_ne_nil_of_left_ne_nil hcomponents _
  obtain ⟨name, below, rfl⟩ := List.exists_cons_of_ne_nil hne
  obtain ⟨before, hsegments, hbefore⟩ :=
    @Path.exists_segments_under root hbytes [] below name hnames
  rw [List.nil_append] at hsegments
  have hreached : w.tree.follow FileTree.maxLinks (if root.isAbsolute then [] else w.directory)
      before = .ok place := by
    rcases hbefore with hsame | hempty
    · rwa [← hsame]
    · exact hplain.follow_of_trailing (hempty ▸ hfollow)
  rw [resolve_of_fits w hnul hunder hlength, Path.isAbsolute_under hcomponents hnames, hsegments,
    hplain.follow_append, hreached]
  exact hplain.follow_names hstored hdirectory hfound FileTree.maxLinks

/-- A file below a directory is found under every path of the directory that is short enough. -/
theorem isFile_under {root : Path} {place : Place} (hroot : w.resolve root = .ok place)
    (hdirectory : w.tree.isDirectory place = true) {names : List Bytes}
    (hfile : w.tree.HoldsFile (place ++ names)) (hne : names ≠ [])
    (hlength : (root.under names).bytes.length ≤ FileTree.maxPathBytes) :
    w.isFile (root.under names) = true := by
  obtain ⟨content, hfound⟩ := hfile
  have hheld := FileTree.isDirectory_of_holdsFile (List.append_ne_nil_of_right_ne_nil place hne)
    ⟨content, hfound⟩
  rw [isFile, resolve_under hplain hstored hroot hdirectory hfound hne hlength]
  simp [hheld]

end Workspace

end Coverage
