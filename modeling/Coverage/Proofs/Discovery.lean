import Coverage.Discovery
import Coverage.Proofs.FileTree.Stored
import Coverage.Proofs.FileTree.Walk
import Coverage.Proofs.Filter
import Coverage.Proofs.Path.Order
import Coverage.Proofs.Text.Bytes

/-!
What is found below a directory. A walk that does not enter ignored directories finds
what a walk of all directories finds, since the filter takes nothing that lies below
an ignored one; only hidden directories and `node_modules` hide files from it. A
directory that a dot leads is hidden only if its name is text, and a file is not
found where its path is too long.
-/
namespace Coverage.Workspace

open Component (IsName)
open Text (IsText)

/-- A directory with such a name is not to be looked into. -/
def IsHidden (name : Bytes) : Prop := name.head? = some dot ∨ name = Text.bytes "node_modules"

instance (name : Bytes) : Decidable (IsHidden name) := inferInstanceAs (Decidable (_ ∨ _))

/-- Of the names that are text just the hidden ones are skipped, of the others none. -/
theorem isSkippedName_iff (name : Bytes) :
    isSkippedName name = true ↔ IsText name ∧ IsHidden name := by
  by_cases htext : IsText name
  · obtain ⟨text, rfl⟩ := htext
    rw [isSkippedName, Text.ofBytes?_bytes, Option.getD_some, Bool.or_eq_true, beq_iff_eq, IsHidden,
      Text.startsWith_dot_iff, Text.bytes_inj]
    exact ⟨fun h => ⟨⟨text, rfl⟩, h⟩, fun h => h.2⟩
  · have hnone : Text.ofBytes? name = none := by
      simpa [Text.isText_iff] using htext
    simp [isSkippedName, hnone, htext, String.startsWith_string_iff]

theorem isSkippedName_of_not_isHidden {name : Bytes} (h : ¬ IsHidden name) :
    isSkippedName name = false := by
  rw [Bool.eq_false_iff, ne_eq, isSkippedName_iff]
  exact fun hskipped => h hskipped.2

/-- The path leads down from the root by names, past no directory that is skipped. -/
def OpenBelow (root p : Path) : Prop :=
  ∃ names, names ≠ [] ∧ (∀ name ∈ names, IsName name) ∧
    (∀ name ∈ names.dropLast, isSkippedName name = false) ∧ p = root.under names

/-- The file is there and the filter takes it. -/
def takes (fits : Glob → String → Bool) (w : Workspace) (f : Filter) (p : Path) : Bool :=
  w.isFile p && f.acceptsBy fits w.directoryPath p

theorem mem_dropLast_iff {α : Type} {l : List α} {a : α} :
    a ∈ l.dropLast ↔ ∃ above below, l = above ++ a :: below ∧ below ≠ [] := by
  constructor
  · intro ha
    obtain ⟨above, below, hsplit⟩ := List.append_of_mem ha
    have hne : l ≠ [] := by
      rintro rfl
      simp at ha
    refine ⟨above, below ++ [l.getLast hne], ?_, by simp⟩
    have hlast := List.dropLast_concat_getLast hne
    rw [hsplit, List.append_assoc] at hlast
    exact hlast.symm
  · rintro ⟨above, below, rfl, hbelow⟩
    rw [List.dropLast_append_of_ne_nil (by simp), List.dropLast_cons_of_ne_nil hbelow]
    exact List.mem_append_right above List.mem_cons_self

section Directory

variable {fits : Glob → String → Bool} {w : Workspace} {f : Filter} {root : Path} {place : Place}
variable (hplain : w.tree.IsPlain) (hroot : w.resolve root = .ok place)

include hroot in
theorem components_ne_nil_of_resolve : root.components ≠ [] := fun h =>
  (follow_of_resolve hroot).1 (root.bytes_eq_nil_iff.2 h)

/-- Nothing on the way to a path that is not ignored is ignored. -/
theorem isIgnored_above {above below : List Bytes} {name : Bytes}
    (hroot : root.components ≠ []) (hnames : ∀ n ∈ above ++ name :: below, IsName n)
    (h : f.isIgnored w.directoryPath (root.under (above ++ name :: below)) = false) :
    f.isIgnored w.directoryPath (root.under (above ++ [name])) = false := by
  rw [Bool.eq_false_iff] at h ⊢
  intro hignored
  apply h
  have hsplit : root.under (above ++ name :: below) =
      (root.under (above ++ [name])).under below := by
    rw [← Path.under_append, List.append_assoc]
    rfl
  rw [hsplit]
  refine Filter.isIgnored_under ?_ (fun n hn => hnames n ?_) hignored
  · rw [root.components_under fun n hn => hnames n ?_]
    · exact List.append_ne_nil_of_left_ne_nil hroot _
    · rcases List.mem_append.1 hn with hn | hn
      · exact List.mem_append_left _ hn
      · rw [List.mem_singleton.1 hn]
        exact List.mem_append_right _ List.mem_cons_self
  · exact List.mem_append_right _ (List.mem_cons_of_mem name hn)

include hplain hroot

/-- Where a walk enters every directory that is not skipped, or at least those that
are not ignored either, it comes by the same files that the filter takes. -/
theorem mem_walk_of_takes {enters : Path → Bytes → Bool}
    (hopen : ∀ p name, enters p name = true → isSkippedName name = false)
    (henters : ∀ p name, isSkippedName name = false → f.isIgnored w.directoryPath p = false →
      enters p name = true)
    {p : Path} (htakes : w.takes fits f p = true) :
    p ∈ w.tree.walk enters [place] place root ↔ OpenBelow root p := by
  obtain ⟨hfile, haccepts⟩ := Bool.and_eq_true_iff.1 htakes
  rw [hplain.mem_walk_iff]
  constructor
  · rintro ⟨names, hreaches, rfl⟩
    refine ⟨names, hreaches.ne_nil, hplain.isName_of_reaches hreaches, ?_, rfl⟩
    intro name hname
    obtain ⟨above, below, hsplit, hbelow⟩ := mem_dropLast_iff.1 hname
    exact hopen _ name ((FileTree.reaches_iff.1 hreaches).2.2 above name below hsplit hbelow).2
  · rintro ⟨names, hne, hnames, hunskipped, rfl⟩
    obtain ⟨hholds, hway⟩ := holdsFile_of_isFile hplain hroot hnames hne hfile
    refine ⟨names, FileTree.reaches_iff.2 ⟨hne, hholds, ?_⟩, rfl⟩
    intro above name below hsplit hbelow
    refine ⟨hway above name below hsplit hbelow, henters _ name ?_ ?_⟩
    · exact hunskipped name (mem_dropLast_iff.2 ⟨above, below, hsplit, hbelow⟩)
    · subst hsplit
      exact isIgnored_above (components_ne_nil_of_resolve hroot) hnames
        (Filter.isIgnored_of_acceptsBy haccepts)

theorem mem_walk_enters (f : Filter) {p : Path} (htakes : w.takes fits f p = true) :
    p ∈ w.tree.walk (w.enters f) [place] place root ↔ OpenBelow root p :=
  mem_walk_of_takes hplain hroot (f := f)
    (fun _ _ henters => by simpa using (Bool.and_eq_true_iff.1 henters).1)
    (fun _ _ hname hignored => by simp [enters, hname, hignored]) htakes

theorem mem_walk_unskipped (f : Filter) {p : Path} (htakes : w.takes fits f p = true) :
    p ∈ w.tree.walk (fun _ name => !isSkippedName name) [place] place root ↔ OpenBelow root p :=
  mem_walk_of_takes hplain hroot (f := f) (fun _ _ henters => by simpa using henters)
    (fun _ _ hname _ => by simp [hname]) htakes

omit hroot in
theorem ascending_walk (fits : Glob → String → Bool) (f : Filter) (enters : Path → Bytes → Bool) :
    Path.Ascending
      (((w.tree.walk enters [place] place root).filter (w.takes fits f)).mergeSort Path.le) :=
  Path.ascending_mergeSort ((hplain.pairwise_walk enters [place] place root).filter _)

theorem mem_walk_sorted_iff (fits : Glob → String → Bool) (f : Filter) (p : Path) :
    p ∈ ((w.tree.walk (w.enters f) [place] place root).filter (w.takes fits f)).mergeSort Path.le ↔
      OpenBelow root p ∧ w.takes fits f p = true := by
  rw [List.mem_mergeSort, List.mem_filter]
  exact and_congr_left fun htakes => mem_walk_enters hplain hroot f htakes

end Directory

variable {w : Workspace} {root : Path} {place : Place}

theorem discoverBy_eq_of_isDirectory (fits : Glob → String → Bool) (f : Filter)
    (hroot : w.resolve root = .ok place) (hdirectory : w.tree.isDirectory place = true) :
    w.discoverBy fits f root = .ok
      (((w.tree.walk (w.enters f) [place] place root).filter (w.takes fits f)).mergeSort
        Path.le) := by
  rw [discoverBy, hroot]
  exact if_pos hdirectory

theorem length_le_of_isFile {p : Path} (h : w.isFile p = true) :
    p.bytes.length ≤ FileTree.maxPathBytes := by
  by_contra hlength
  have hfails : ∃ why, w.resolve p = .error why := by
    rw [resolve, if_pos (Nat.not_le.1 hlength)]
    split
    · exact ⟨_, rfl⟩
    · split <;> exact ⟨_, rfl⟩
  obtain ⟨why, hresolve⟩ := hfails
  rw [isFile, hresolve] at h
  cases h

theorem names_ne_nil (hstored : w.tree.IsStored) (hdirectory : w.tree.isDirectory place = true)
    {names : List Bytes} (hfile : w.tree.HoldsFile (place ++ names)) : names ≠ [] := by
  rintro rfl
  obtain ⟨content, hfound⟩ := hfile
  rw [List.append_nil] at hfound
  have hheld := FileTree.isDirectory_of_holdsFile (hstored.ne_nil_of_find? hfound) ⟨_, hfound⟩
  rw [hdirectory] at hheld
  cases hheld

theorem isName_of_holdsFile (hplain : w.tree.IsPlain) {names : List Bytes}
    (hfile : w.tree.HoldsFile (place ++ names)) : ∀ name ∈ names, IsName name := by
  intro name hname
  exact hplain.isName_of_find? hfile.choose_spec (List.mem_append_right place hname)

/-- A path below a root tells the names that lead to it. -/
theorem eq_of_under_eq {names others : List Bytes} (hnames : ∀ name ∈ names, IsName name)
    (hothers : ∀ name ∈ others, IsName name) (h : root.under names = root.under others) :
    names = others := by
  have hcomponents := congrArg Path.components h
  rw [root.components_under hnames, root.components_under hothers,
    List.append_cancel_left_eq] at hcomponents
  exact List.map_injective_iff.2 (fun _ _ heq => Component.name.inj heq) hcomponents

/-- Of the files below a directory those are found that the filter takes, that lie in no hidden
directory, and whose path is not too long. -/
theorem mem_walk_sorted_under_iff (hplain : w.tree.IsPlain) (hstored : w.tree.IsStored)
    (hroot : w.resolve root = .ok place) (hdirectory : w.tree.isDirectory place = true)
    (fits : Glob → String → Bool) (f : Filter) {names : List Bytes}
    (hfile : w.tree.HoldsFile (place ++ names))
    (htext : ∀ name ∈ names.dropLast, name.head? = some dot → IsText name) :
    root.under names ∈
        ((w.tree.walk (w.enters f) [place] place root).filter (w.takes fits f)).mergeSort
          Path.le ↔
      f.acceptsBy fits w.directoryPath (root.under names) = true ∧
        (∀ name ∈ names.dropLast, ¬ IsHidden name) ∧
          (root.under names).bytes.length ≤ FileTree.maxPathBytes := by
  have hne := names_ne_nil hstored hdirectory hfile
  rw [mem_walk_sorted_iff hplain hroot, takes, Bool.and_eq_true]
  constructor
  · rintro ⟨⟨others, -, hothers, hopen, hunder⟩, hfound, haccepts⟩
    obtain rfl := eq_of_under_eq (isName_of_holdsFile hplain hfile) hothers hunder
    refine ⟨haccepts, fun name hname hhidden => ?_, length_le_of_isFile hfound⟩
    have hskipped : isSkippedName name = true := by
      refine (isSkippedName_iff name).2 ⟨?_, hhidden⟩
      rcases hhidden with hdot | rfl
      · exact htext name hname hdot
      · exact ⟨_, rfl⟩
    rw [hopen name hname] at hskipped
    cases hskipped
  · rintro ⟨haccepts, hopen, hlength⟩
    have hnames := isName_of_holdsFile hplain hfile
    have hunskipped : ∀ name ∈ names.dropLast, isSkippedName name = false := fun name hname =>
      isSkippedName_of_not_isHidden (hopen name hname)
    exact ⟨⟨names, hne, hnames, hunskipped, rfl⟩,
      isFile_under hplain hstored hroot hdirectory hfile hne hlength, haccepts⟩

/-- What is found below a directory are files that stand there, in path order and each once. Of
these files, unless their way down leads past a name that a dot leads and that is no text, just
those are found that the filter takes, whatever its patterns fit, that lie in no hidden directory
and whose path is not too long. Testing every file outside hidden directories gives the same list,
and below an ignored directory there are none. -/
theorem discoverBy_directory (hplain : w.tree.IsPlain) (hstored : w.tree.IsStored)
    (fits : Glob → String → Bool) (f : Filter) (hroot : w.resolve root = .ok place)
    (hdirectory : w.tree.isDirectory place = true) :
    ∃ found, w.discoverBy fits f root = .ok found ∧ Path.Ascending found ∧
      (∀ p ∈ found, ∃ names, w.tree.HoldsFile (place ++ names) ∧ p = root.under names) ∧
      (∀ names, w.tree.HoldsFile (place ++ names) →
        (∀ name ∈ names.dropLast, name.head? = some dot → IsText name) →
          (root.under names ∈ found ↔
            f.acceptsBy fits w.directoryPath (root.under names) = true ∧
              (∀ name ∈ names.dropLast, ¬ IsHidden name) ∧
                (root.under names).bytes.length ≤ FileTree.maxPathBytes)) ∧
      found = ((w.tree.walk (fun _ name => !isSkippedName name) [place] place root).filter
        (w.takes fits f)).mergeSort Path.le ∧
      (f.isIgnored w.directoryPath root = true → found = []) := by
  refine ⟨_, discoverBy_eq_of_isDirectory fits f hroot hdirectory, ascending_walk hplain fits f _,
    fun p hp => ?_, fun names hfile htext => ?_, ?_, fun hignored => ?_⟩
  · obtain ⟨⟨names, hne, hnames, -, rfl⟩, htakes⟩ :=
      (mem_walk_sorted_iff hplain hroot fits f p).1 hp
    have hfile := (Bool.and_eq_true_iff.1 htakes).1
    exact ⟨names, (holdsFile_of_isFile hplain hroot hnames hne hfile).1, rfl⟩
  · exact mem_walk_sorted_under_iff hplain hstored hroot hdirectory fits f hfile htext
  · refine (ascending_walk hplain fits f _).ext (ascending_walk hplain fits f _) fun p => ?_
    rw [mem_walk_sorted_iff hplain hroot, List.mem_mergeSort, List.mem_filter]
    exact and_congr_left fun htakes => (mem_walk_unskipped hplain hroot f htakes).symm
  · refine List.eq_nil_iff_forall_not_mem.2 fun p hp => ?_
    obtain ⟨⟨names, -, hnames, -, rfl⟩, htakes⟩ := (mem_walk_sorted_iff hplain hroot fits f p).1 hp
    have hbelow := Filter.isIgnored_under (components_ne_nil_of_resolve hroot) hnames hignored
    rw [Filter.isIgnored_of_acceptsBy (Bool.and_eq_true_iff.1 htakes).2] at hbelow
    cases hbelow

/-- A workspace at the top of a tree that holds the given files. -/
def holding (files : List (Place × ByteArray)) : Workspace where
  tree := files.foldl (fun t file => t.add file.1 (.file file.2)) .empty
  directory := []

/-- A dump beside a directory that holds another one, and one in a hidden directory. -/
def nested : Workspace := holding
  [([Text.bytes "a.cov.json"], .empty), ([Text.bytes ".c", Text.bytes "b.cov.json"], .empty),
    ([Text.bytes "lib", Text.bytes "d.cov.json"], .empty)]

theorem nested_isPlain : nested.tree.IsPlain := ⟨by decide +kernel, by decide +kernel⟩

theorem nested_isStored : nested.tree.IsStored :=
  ⟨by decide +kernel, by decide +kernel, by decide +kernel⟩

theorem isDirectory_top (t : FileTree) : t.isDirectory [] = true := (t.isDirectory_iff _).2 (.inl rfl)

theorem resolve_dot (hdirectory : w.directory = []) : w.resolve "." = .ok [] := by
  have hsegments : Path.segments "." = [[dot]] := by decide +kernel
  rw [resolve_top hdirectory (by decide +kernel) (by decide +kernel) (by decide +kernel), hsegments,
    FileTree.follow_skipped (isDirectory_top _) (.inr rfl), FileTree.follow]

/-- The dumps beside and in the ordinary directory are found, the one in the hidden directory is
not. -/
theorem discoverBy_directory_nested : nested.tree.IsPlain ∧ nested.tree.IsStored ∧
    nested.resolve "." = .ok [] ∧ nested.tree.isDirectory [] = true ∧
    ∃ found, nested.discover .all "." = .ok found ∧ (("./a.cov.json" : Path) ∈ found) ∧
      (("./lib/d.cov.json" : Path) ∈ found) ∧ (("./.c/b.cov.json" : Path) ∉ found) := by
  obtain ⟨found, hfound, -, -, hmem, -⟩ := discoverBy_directory nested_isPlain nested_isStored
    Glob.accepts .all (resolve_dot rfl) (isDirectory_top _)
  refine ⟨nested_isPlain, nested_isStored, resolve_dot rfl, isDirectory_top _, found, hfound, ?_⟩
  have htop := hmem [Text.bytes "a.cov.json"] (by decide +kernel) (by decide +kernel)
  have hbelow := hmem [Text.bytes "lib", Text.bytes "d.cov.json"] (by decide +kernel)
    (by decide +kernel)
  have hhidden := hmem [Text.bytes ".c", Text.bytes "b.cov.json"] (by decide +kernel)
    (by decide +kernel)
  have htopPath : Path.under "." [Text.bytes "a.cov.json"] = "./a.cov.json" := by decide +kernel
  have hbelowPath : Path.under "." [Text.bytes "lib", Text.bytes "d.cov.json"] =
      "./lib/d.cov.json" := by decide +kernel
  have hhiddenPath : Path.under "." [Text.bytes ".c", Text.bytes "b.cov.json"] =
      "./.c/b.cov.json" := by decide +kernel
  refine ⟨htopPath ▸ htop.2 (by decide +kernel), hbelowPath ▸ hbelow.2 (by decide +kernel), ?_⟩
  rw [← hhiddenPath, hhidden]
  decide +kernel

/-- A path to the working directory through as many dots. -/
def roundabout (count : Nat) : Path := ⟨(List.replicate count [dot, slash]).flatten⟩

theorem length_roundabout (count : Nat) : (roundabout count).bytes.length = 2 * count := by
  simp [roundabout, Nat.mul_comm]

theorem segments_roundabout (count : Nat) :
    (roundabout count).segments = List.replicate count [dot] ++ [[]] := by
  induction count with
  | zero => rfl
  | succ count ih =>
      have hcons : roundabout (count + 1) = ⟨[dot] ++ slash :: (roundabout count).bytes⟩ := by
        simp [roundabout, List.replicate_succ]
      rw [hcons, Path.segments_append, Path.segments_of_not_mem (by decide), ih]
      rfl

theorem follow_dots {t : FileTree} (h : t.isDirectory place = true) (links count : Nat) :
    t.follow links place (List.replicate count [dot] ++ [[]]) = .ok place := by
  induction count with
  | zero =>
      rw [List.replicate_zero, List.nil_append, FileTree.follow_skipped h (.inl rfl),
        FileTree.follow]
  | succ count ih =>
      rw [List.replicate_succ, List.cons_append, FileTree.follow_skipped h (.inr rfl), ih]

theorem resolve_roundabout (hdirectory : w.directory = []) {count : Nat} (hpos : 0 < count)
    (hcount : 2 * count ≤ FileTree.maxPathBytes) : w.resolve (roundabout count) = .ok [] := by
  have hlength := length_roundabout count
  have hnul : 0 ∉ (roundabout count).bytes := by
    intro hmem
    obtain ⟨piece, hpiece, hzero⟩ := List.mem_flatten.1 hmem
    rw [List.eq_of_mem_replicate hpiece] at hzero
    revert hzero
    decide
  have hne : (roundabout count).bytes ≠ [] := by
    intro hnil
    rw [hnil, List.length_nil] at hlength
    omega
  rw [resolve_top hdirectory hnul hne (by omega), segments_roundabout,
    follow_dots (isDirectory_top _)]

theorem acceptsBy_all_under (fits : Glob → String → Bool) (directory root : Path) {name : Bytes}
    (hname : IsName name)
    (hdump : (Text.ofBytes? name).any (fun text => text.endsWith Filter.dumpSuffix) = true) :
    Filter.all.acceptsBy fits directory (root.under [name]) = true := by
  have hlast : (root.under [name]).fileName? = some name := by
    rw [Path.fileName?, Path.under_singleton, root.components_join_name hname,
      List.getLast?_concat]
    rfl
  simp [Filter.acceptsBy, Filter.isDump, Filter.isIgnored, Filter.all, hlast, hdump]

/-- A directory whose name a dot leads and that is no text. -/
def obscure : Workspace := holding [([[dot, 0xff], Text.bytes "b.cov.json"], .empty)]

theorem mem_discover_obscure : ∃ found, obscure.discover .all "." = .ok found ∧
    Path.under "." [[dot, 0xff], Text.bytes "b.cov.json"] ∈ found := by
  have hplain : obscure.tree.IsPlain := ⟨by decide +kernel, by decide +kernel⟩
  have hstored : obscure.tree.IsStored := ⟨by decide +kernel, by decide +kernel, by decide +kernel⟩
  have htop : obscure.resolve "." = .ok [] := resolve_dot rfl
  have hfile : obscure.tree.HoldsFile ([] ++ [[dot, 0xff], Text.bytes "b.cov.json"]) := by
    decide +kernel
  have hfound := isFile_under hplain hstored htop (isDirectory_top _) hfile (by simp)
    (by decide +kernel)
  refine ⟨_, discoverBy_eq_of_isDirectory Glob.accepts .all htop (isDirectory_top _),
    (mem_walk_sorted_iff hplain htop Glob.accepts .all _).2
      ⟨?_, Bool.and_eq_true_iff.2 ⟨hfound, by decide +kernel⟩⟩⟩
  exact ⟨_, by simp, by decide +kernel, by decide +kernel, rfl⟩

/-- A path that is too long is not found. -/
theorem not_mem_discoverBy_of_lt_length (hplain : w.tree.IsPlain)
    (hroot : w.resolve root = .ok place) (hdirectory : w.tree.isDirectory place = true)
    (fits : Glob → String → Bool) (f : Filter) {p : Path}
    (hlength : FileTree.maxPathBytes < p.bytes.length) :
    ∃ found, w.discoverBy fits f root = .ok found ∧ p ∉ found := by
  refine ⟨_, discoverBy_eq_of_isDirectory fits f hroot hdirectory, fun hmem => ?_⟩
  have htakes := ((mem_walk_sorted_iff hplain hroot fits f p).1 hmem).2
  exact absurd hlength (Nat.not_lt.2 (length_le_of_isFile (Bool.and_eq_true_iff.1 htakes).1))

/-- A hidden directory is looked into if its name is no text, and a dump is not found under a path
that is too long. -/
theorem discoverBy_directory_exceptions :
    (∃ found, obscure.discover .all "." = .ok found ∧ IsHidden [dot, 0xff] ∧
      Path.under "." [[dot, 0xff], Text.bytes "b.cov.json"] ∈ found) ∧
    (nested.resolve (roundabout 2045) = .ok [] ∧
      nested.tree.HoldsFile [Text.bytes "a.cov.json"] ∧
      Filter.all.accepts nested.directoryPath
        ((roundabout 2045).under [Text.bytes "a.cov.json"]) = true ∧
      ∃ found, nested.discover .all (roundabout 2045) = .ok found ∧
        (roundabout 2045).under [Text.bytes "a.cov.json"] ∉ found) := by
  obtain ⟨found, hfound, hmem⟩ := mem_discover_obscure
  have htop : nested.resolve (roundabout 2045) = .ok [] :=
    resolve_roundabout rfl (by decide) (by decide)
  have hfile : nested.tree.HoldsFile [Text.bytes "a.cov.json"] := by decide +kernel
  have hname : IsName (Text.bytes "a.cov.json") := by decide +kernel
  refine ⟨⟨found, hfound, by decide, hmem⟩, htop, hfile,
    acceptsBy_all_under _ _ _ hname (by decide +kernel), ?_⟩
  refine not_mem_discoverBy_of_lt_length nested_isPlain htop (isDirectory_top _) _ _ ?_
  have hjoin := (roundabout 2045).length_add_le_length_join (Path.isAbsolute_name hname)
  have hlast : (Text.bytes "a.cov.json").length = 10 := by decide +kernel
  rw [length_roundabout, hlast] at hjoin
  rw [Path.under_singleton]
  exact Nat.lt_of_lt_of_le (by decide) hjoin

end Coverage.Workspace
