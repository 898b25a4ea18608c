import Coverage.FileTree
import Coverage.Proofs.OrderedMap
import Coverage.Proofs.Path.Below
import Mathlib.Data.List.Nodup

/-!
Trees without links. A path that resolves in such a tree leads where its components
say, one name down or one place up at a time, so two paths of the same components
lead to the same place; and on the way down by names every place is a directory.
-/
namespace Coverage

open Component (IsName)

namespace FileTree

/-- No entry is a link, and every entry goes by proper names. -/
structure IsPlain (t : FileTree) : Prop where
  noLink : ∀ e ∈ t.entries.entries, ∀ target, e.2 ≠ .link target
  names : ∀ e ∈ t.entries.entries, ∀ name ∈ e.1, IsName name

instance (entry : Entry) : Decidable (∀ target, entry ≠ .link target) :=
  match entry with
  | .file _ => isTrue fun _ h => Entry.noConfusion h
  | .directory => isTrue fun _ h => Entry.noConfusion h
  | .link target => isFalse fun h => h target rfl

/-- There is a file at the place. -/
def HoldsFile (t : FileTree) (place : Place) : Prop :=
  ∃ content, t.find? place = some (.file content)

instance (t : FileTree) (place : Place) : Decidable (t.HoldsFile place) :=
  match h : t.find? place with
  | some (.file content) => isTrue ⟨content, h⟩
  | some .directory => isFalse fun ⟨_, hfile⟩ => nomatch h.symm.trans hfile
  | some (.link _) => isFalse fun ⟨_, hfile⟩ => nomatch h.symm.trans hfile
  | none => isFalse fun ⟨_, hfile⟩ => nomatch h.symm.trans hfile

theorem isDirectory_iff (t : FileTree) (place : Place) :
    t.isDirectory place = true ↔ place = [] ∨ t.find? place = some .directory := by
  simp only [isDirectory, directories, List.contains_eq_mem, List.mem_cons, List.mem_filterMap,
    decide_eq_true_eq, find?, OrderedMap.find?_eq_some_iff]
  constructor
  · rintro (htop | ⟨e, he, hplace⟩)
    · exact .inl htop
    · right
      obtain ⟨held, entry⟩ := e
      cases entry <;> simp_all [Entry.isDirectory]
  · rintro (htop | hentry)
    · exact .inl htop
    · exact .inr ⟨_, hentry, rfl⟩

theorem mem_names_iff (t : FileTree) (place : Place) (name : Bytes) :
    name ∈ t.names place ↔ ∃ entry, t.find? (place ++ [name]) = some entry := by
  have hkeys := OrderedMap.mem_keys_iff t.entries (place ++ [name])
  rw [find?, ← hkeys, names, List.mem_filterMap]
  constructor
  · intro hexists
    obtain ⟨held, hheld, hlast⟩ := hexists
    split at hlast
    · rename_i hplace
      obtain ⟨body, rfl⟩ := List.getLast?_eq_some_iff.1 hlast
      rw [List.dropLast_concat] at hplace
      exact hplace ▸ hheld
    · cases hlast
  · intro hmem
    exact ⟨_, hmem, by simp⟩

theorem nodup_names (t : FileTree) (place : Place) : (t.names place).Nodup := by
  refine t.entries.nodup_keys.filterMap fun held held' name hheld hheld' => ?_
  split at hheld
  · rename_i hplace
    split at hheld'
    · rename_i hplace'
      obtain ⟨body, rfl⟩ := List.getLast?_eq_some_iff.1 (Option.mem_def.1 hheld)
      obtain ⟨body', rfl⟩ := List.getLast?_eq_some_iff.1 (Option.mem_def.1 hheld')
      rw [List.dropLast_concat] at hplace hplace'
      rw [hplace, hplace']
    · cases hheld'
  · cases hheld

theorem follow_skipped {t : FileTree} {place : Place} (h : t.isDirectory place = true)
    {segment : Bytes} (hskipped : segment = [] ∨ segment = [dot]) (links : Nat)
    (rest : List Bytes) : t.follow links place (segment :: rest) = t.follow links place rest := by
  rw [follow.eq_def]
  simp [h, hskipped]

/-- A name goes on to its entry, unless that is a link. -/
theorem follow_name {t : FileTree} {place : Place} (h : t.isDirectory place = true) {name : Bytes}
    (hname : IsName name) (hlength : name.length ≤ maxNameBytes) {entry : Entry}
    (hfound : t.find? (place ++ [name]) = some entry) (hlink : ∀ target, entry ≠ .link target)
    (links : Nat) (rest : List Bytes) :
    t.follow links place (name :: rest) = t.follow links (place ++ [name]) rest := by
  obtain ⟨-, hempty, hdot, hup⟩ := hname
  rw [follow.eq_def]
  simp only [h, Bool.not_true, Bool.false_eq_true, if_false, hempty, hdot, hup, or_self,
    Nat.not_lt.2 hlength, hfound]
  cases entry with
  | link target => exact absurd rfl (hlink target)
  | file content => rfl
  | directory => rfl

theorem follow_file {t : FileTree} {place : Place} (h : t.isDirectory place = true) {name : Bytes}
    (hname : IsName name) (hlength : name.length ≤ maxNameBytes)
    (hfile : t.HoldsFile (place ++ [name])) (links : Nat) (rest : List Bytes) :
    t.follow links place (name :: rest) = t.follow links (place ++ [name]) rest := by
  obtain ⟨content, hfound⟩ := hfile
  exact follow_name h hname hlength hfound (fun _ => by simp) links rest

namespace IsPlain

variable {t : FileTree} (h : t.IsPlain)

include h

theorem find?_ne_link (place : Place) (target : Path) : t.find? place ≠ some (.link target) := by
  intro hfound
  exact h.noLink _ ((OrderedMap.find?_eq_some_iff t.entries place _).1 hfound) target rfl

theorem isName_of_find? {place : Place} {entry : Entry} (hfound : t.find? place = some entry)
    {name : Bytes} (hname : name ∈ place) : IsName name :=
  h.names _ ((OrderedMap.find?_eq_some_iff t.entries place entry).1 hfound) name hname

theorem find?_cases {place : Place} {entry : Entry} (hfound : t.find? place = some entry) :
    t.HoldsFile place ∨ t.isDirectory place = true := by
  cases entry with
  | file content => exact .inl ⟨content, hfound⟩
  | directory => exact .inr ((t.isDirectory_iff place).2 (.inr hfound))
  | link target => exact absurd hfound (h.find?_ne_link place target)

/-- What one piece of a path asks for. -/
theorem follow_cons {links : Nat} {place place' : Place} {segment : Bytes} {rest : List Bytes}
    (hfollow : t.follow links place (segment :: rest) = .ok place') :
    t.isDirectory place = true ∧
      (Component.ofSegment? segment = none ∧ t.follow links place rest = .ok place' ∨
        segment = [dot, dot] ∧ t.follow links place.dropLast rest = .ok place' ∨
        IsName segment ∧ (∃ entry, t.find? (place ++ [segment]) = some entry) ∧
          t.follow links (place ++ [segment]) rest = .ok place') := by
  unfold follow at hfollow
  split at hfollow
  · cases hfollow
  · rename_i hdirectory
    refine ⟨by simpa using hdirectory, ?_⟩
    split at hfollow
    · rename_i hskipped
      exact .inl ⟨by rw [Component.ofSegment?, if_pos hskipped], hfollow⟩
    · split at hfollow
      · rename_i hup
        exact .inr (.inl ⟨hup, hfollow⟩)
      · split at hfollow
        · cases hfollow
        · split at hfollow
          · cases hfollow
          · cases hfollow
          · rename_i target links hfound
            exact absurd hfound (h.find?_ne_link _ target)
          · rename_i entry hfound _ _
            have hname := h.isName_of_find? hfound (List.mem_append_right place List.mem_cons_self)
            exact .inr (.inr ⟨hname, ⟨entry, hfound⟩, hfollow⟩)

end IsPlain

/-- One component further. -/
def descend (place : Place) : Component → Place
  | .up => place.dropLast
  | .name bytes => place ++ [bytes]
  | _ => place

theorem IsPlain.follow_eq {t : FileTree} (h : t.IsPlain) {links : Nat} {place place' : Place}
    {segments : List Bytes} (hfollow : t.follow links place segments = .ok place') :
    place' = (segments.filterMap Component.ofSegment?).foldl descend place := by
  induction segments generalizing place with
  | nil =>
      rw [follow] at hfollow
      cases hfollow
      rfl
  | cons segment rest ih =>
      obtain ⟨-, ⟨hskipped, hrest⟩ | ⟨rfl, hrest⟩ | ⟨hname, -, hrest⟩⟩ := h.follow_cons hfollow
      · rw [List.filterMap_cons_none hskipped]
        exact ih hrest
      · exact ih hrest
      · rw [List.filterMap_cons_some hname.ofSegment?]
        exact ih hrest

/-- A file is no directory. -/
theorem isDirectory_of_holdsFile {t : FileTree} {place : Place} (hne : place ≠ [])
    (h : t.HoldsFile place) : t.isDirectory place = false := by
  obtain ⟨content, hfile⟩ := h
  rw [Bool.eq_false_iff, ne_eq, isDirectory_iff, hfile]
  simp [hne]

/-- A path passes through directories only, and where it goes on by a name there is an
entry of that name. -/
theorem IsPlain.follow_at {t : FileTree} (h : t.IsPlain) {links : Nat} {place place' : Place}
    {before after : List Bytes} {segment : Bytes}
    (hfollow : t.follow links place (before ++ segment :: after) = .ok place') :
    t.isDirectory ((before.filterMap Component.ofSegment?).foldl descend place) = true ∧
      (IsName segment → ∃ entry,
        t.find? ((before.filterMap Component.ofSegment?).foldl descend place ++ [segment]) =
          some entry) := by
  induction before generalizing place with
  | nil =>
      obtain ⟨hdirectory, ⟨hskipped, -⟩ | ⟨rfl, -⟩ | ⟨-, hentry, -⟩⟩ := h.follow_cons hfollow
      · refine ⟨hdirectory, fun hname => ?_⟩
        rw [hname.ofSegment?] at hskipped
        cases hskipped
      · exact ⟨hdirectory, fun hname => absurd rfl hname.2.2.2⟩
      · exact ⟨hdirectory, fun _ => hentry⟩
  | cons first rest ih =>
      obtain ⟨-, ⟨hskipped, hrest⟩ | ⟨rfl, hrest⟩ | ⟨hname, -, hrest⟩⟩ := h.follow_cons hfollow
      · rw [List.filterMap_cons_none hskipped]
        exact ih hrest
      · exact ih hrest
      · rw [List.filterMap_cons_some hname.ofSegment?]
        exact ih hrest

theorem foldl_descend_names (place : Place) (names : List Bytes) :
    (names.map Component.name).foldl descend place = place ++ names := by
  induction names generalizing place with
  | nil => simp
  | cons name rest ih =>
      rw [List.map_cons, List.foldl_cons, ih]
      simp [descend]

end FileTree

namespace Workspace

/-- Where the components of a path lead, if everything is there. -/
def destination (w : Workspace) (p : Path) : Place :=
  p.inner.foldl FileTree.descend (if p.isAbsolute then [] else w.directory)

theorem destination_congr (w : Workspace) {p q : Path} (h : p.components = q.components) :
    w.destination p = w.destination q := by
  rw [destination, destination, Path.inner_congr h, Path.isAbsolute_congr h]

theorem follow_of_resolve {w : Workspace} {p : Path} {place : Place}
    (h : w.resolve p = .ok place) :
    p.bytes ≠ [] ∧ w.tree.follow FileTree.maxLinks (if p.isAbsolute then [] else w.directory)
      p.segments = .ok place := by
  rw [resolve] at h
  split at h
  · cases h
  · split at h
    · cases h
    · rename_i hbytes
      split at h
      · cases h
      · exact ⟨hbytes, h⟩

theorem resolve_of_fits (w : Workspace) {p : Path} (hnul : 0 ∉ p.bytes)
    (hbytes : p.bytes ≠ []) (hlength : p.bytes.length ≤ FileTree.maxPathBytes) :
    w.resolve p =
      w.tree.follow FileTree.maxLinks (if p.isAbsolute then [] else w.directory) p.segments := by
  rw [resolve, if_neg (by simpa using hnul), if_neg hbytes, if_neg (by omega)]

/-- From the top of a tree an absolute path and a relative one start alike. -/
theorem resolve_top {w : Workspace} (hdirectory : w.directory = []) {p : Path}
    (hnul : 0 ∉ p.bytes) (hbytes : p.bytes ≠ [])
    (hlength : p.bytes.length ≤ FileTree.maxPathBytes) :
    w.resolve p = w.tree.follow FileTree.maxLinks [] p.segments := by
  rw [resolve_of_fits w hnul hbytes hlength, hdirectory, ite_self]

/-- A file at the top is found by its name. -/
theorem resolve_name {w : Workspace} (hdirectory : w.directory = []) {name : Bytes}
    (hname : IsName name) (hnul : 0 ∉ name)
    (hlength : name.length ≤ FileTree.maxNameBytes) (hfile : w.tree.HoldsFile [name]) :
    w.resolve ⟨name⟩ = .ok [name] := by
  have hsegments : Path.segments ⟨name⟩ = [name] := Path.segments_of_not_mem hname.1
  have htop : w.tree.isDirectory [] = true := (FileTree.isDirectory_iff _ _).2 (.inl rfl)
  rw [resolve_top hdirectory hnul hname.2.1 (Nat.le_trans hlength (by decide)), hsegments,
    FileTree.follow_file htop hname hlength hfile, FileTree.follow]
  rfl

theorem readText_of_find? {w : Workspace} {p : Path} {place : Place} {text : String}
    (hresolve : w.resolve p = .ok place) (hne : place ≠ [])
    (hfind : w.tree.find? place = some (.file text.toByteArray)) : w.readText p = .ok text := by
  have hdirectory := FileTree.isDirectory_of_holdsFile hne ⟨_, hfind⟩
  have hdecode : String.fromUTF8? text.toByteArray = some text := dif_pos text.isValidUTF8
  simp [readText, hresolve, hdirectory, hfind, hdecode, bind, Except.bind]

theorem destination_under (w : Workspace) {root : Path} (hroot : root.components ≠ [])
    {names : List Bytes} (h : ∀ name ∈ names, IsName name) :
    w.destination (root.under names) = w.destination root ++ names := by
  rw [destination, destination, Path.isAbsolute_under hroot h, Path.inner_under root h,
    List.foldl_append, FileTree.foldl_descend_names]

variable {w : Workspace} (hplain : w.tree.IsPlain)

include hplain

theorem resolve_eq {p : Path} {place : Place} (h : w.resolve p = .ok place) :
    place = w.destination p := by
  rw [hplain.follow_eq (follow_of_resolve h).2, Path.filterMap_segments, destination]

/-- Paths of the same components lead to the same place, as far as they lead anywhere. -/
theorem resolve_congr {p q : Path} {place place' : Place} (hp : w.resolve p = .ok place)
    (hq : w.resolve q = .ok place') (h : p.components = q.components) : place = place' := by
  rw [resolve_eq hplain hp, resolve_eq hplain hq, w.destination_congr h]

theorem readText_congr {p q : Path} {place place' : Place} (hp : w.resolve p = .ok place)
    (hq : w.resolve q = .ok place') (h : p.components = q.components) :
    w.readText p = w.readText q := by
  rw [readText, readText, hp, hq, resolve_congr hplain hp hq h]

/-- Where names lead from a directory to a place, every place on the way is a directory
that holds the next name. -/
theorem on_way_of_resolve {root : Path} {place place' : Place} (hroot : w.resolve root = .ok place)
    {above below : List Bytes} {name : Bytes}
    (hnames : ∀ n ∈ above ++ name :: below, IsName n)
    (hresolve : w.resolve (root.under (above ++ name :: below)) = .ok place') :
    w.tree.isDirectory (place ++ above) = true ∧
      ∃ entry, w.tree.find? (place ++ above ++ [name]) = some entry := by
  have hbytes := (follow_of_resolve hroot).1
  have hcomponents : root.components ≠ [] := fun h => hbytes ((root.bytes_eq_nil_iff).2 h)
  have habove : ∀ n ∈ above, IsName n := fun n hn => hnames n (List.mem_append_left _ hn)
  have hname : IsName name := hnames name (List.mem_append_right _ List.mem_cons_self)
  have hfollow := (follow_of_resolve hresolve).2
  obtain ⟨before, hsegments, hbefore⟩ := Path.exists_segments_under hbytes hnames
  rw [Path.isAbsolute_under hcomponents hnames, hsegments] at hfollow
  have hreached : (before.filterMap Component.ofSegment?).foldl FileTree.descend
      (if root.isAbsolute then [] else w.directory) = place ++ above := by
    rw [Path.filterMap_eq_inner hbefore, resolve_eq hplain hroot, ← w.destination_under hcomponents habove, destination,
      Path.isAbsolute_under hcomponents habove]
  have hat := hplain.follow_at hfollow
  rw [hreached] at hat
  exact ⟨hat.1, hat.2 hname⟩

/-- Where a file is reached by names from a directory, it stands at these names, and
every place on the way to it is a directory. -/
theorem holdsFile_of_isFile {root : Path} {place : Place} (hroot : w.resolve root = .ok place)
    {names : List Bytes} (hnames : ∀ name ∈ names, IsName name) (hne : names ≠ [])
    (hfile : w.isFile (root.under names) = true) :
    w.tree.HoldsFile (place ++ names) ∧
      ∀ above name below, names = above ++ name :: below → below ≠ [] →
        w.tree.isDirectory (place ++ above ++ [name]) = true := by
  have hbytes := (follow_of_resolve hroot).1
  have hcomponents : root.components ≠ [] := fun h => hbytes ((root.bytes_eq_nil_iff).2 h)
  rw [isFile] at hfile
  split at hfile
  · rename_i place' hresolve
    have hplace' : place' = place ++ names := by
      rw [resolve_eq hplain hresolve, w.destination_under hcomponents hnames,
        resolve_eq hplain hroot]
    have hway : ∀ above name below, names = above ++ name :: below →
        w.tree.isDirectory (place ++ above) = true ∧
          ∃ entry, w.tree.find? (place ++ above ++ [name]) = some entry := by
      rintro above name below rfl
      exact on_way_of_resolve hplain hroot hnames hresolve
    constructor
    · have hlast := List.dropLast_concat_getLast hne
      obtain ⟨entry, hentry⟩ := (hway _ _ [] hlast.symm).2
      rw [List.append_assoc, hlast] at hentry
      rcases hplain.find?_cases hentry with hfound | hdirectory
      · exact hfound
      · rw [hplace', hdirectory] at hfile
        cases hfile
    · intro above name below hsplit hbelow
      obtain ⟨next, rest, rfl⟩ := List.exists_cons_of_ne_nil hbelow
      have hnext := (hway (above ++ [name]) next rest (by simp [hsplit])).1
      rwa [← List.append_assoc] at hnext
  · cases hfile

end Workspace

end Coverage
