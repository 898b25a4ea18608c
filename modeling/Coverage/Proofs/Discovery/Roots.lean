import Coverage.Proofs.Discovery

/-!
Several roots. What is found below any of them is listed in path order, and of paths
with the same components the one that was found first. So a root adds nothing if all
that is found below it was found before, as below a directory that an earlier root
leads to; and in another order the roots find the same, if under other spellings.
-/
namespace Coverage.Workspace

open Component (IsName)

section Repeats

theorem eraseRepsBy_loop {α : Type} (r : α → α → Bool) (a : α) (l acc : List α) :
    List.eraseRepsBy.loop r a l acc = acc.reverse ++ List.eraseRepsBy r (a :: l) := by
  induction l generalizing a acc with
  | nil => simp [List.eraseRepsBy, List.eraseRepsBy.loop]
  | cons b rest ih =>
      rw [List.eraseRepsBy, List.eraseRepsBy.loop, List.eraseRepsBy.loop]
      cases r a b with
      | true => exact ih a acc
      | false =>
          dsimp only
          rw [ih b (a :: acc), ih b [a]]
          simp

theorem withoutRepeats_cons_cons (p q : Path) (rest : List Path) :
    withoutRepeats (p :: q :: rest) =
      if p.same q then withoutRepeats (p :: rest) else p :: withoutRepeats (q :: rest) := by
  rw [withoutRepeats, List.eraseRepsBy, List.eraseRepsBy.loop]
  cases hsame : p.same q with
  | true =>
      simp only [Path.same] at hsame
      simp only [hsame, if_true]
      rfl
  | false =>
      simp only [Path.same] at hsame
      simp only [hsame]
      rw [eraseRepsBy_loop]
      rfl

theorem find?_same_cons (p q : Path) (rest : List Path) :
    (p :: rest).find? q.same = if q.same p then some p else rest.find? q.same := by
  rw [List.find?_cons]
  cases q.same p <;> rfl

theorem mem_of_mem_withoutRepeats {first p : Path} {rest : List Path}
    (h : p ∈ withoutRepeats (first :: rest)) : p ∈ first :: rest := by
  induction rest generalizing first with
  | nil => exact h
  | cons next rest ih =>
      rw [withoutRepeats_cons_cons] at h
      split at h
      · rcases List.mem_cons.1 (ih h) with rfl | hrest
        · exact List.mem_cons_self
        · exact List.mem_cons_of_mem first (List.mem_cons_of_mem next hrest)
      · rcases List.mem_cons.1 h with rfl | hrest
        · exact List.mem_cons_self
        · exact List.mem_cons_of_mem first (ih hrest)

/-- A path that differs from the next one in a sorted list stands before all others. -/
theorem lt_of_differs {first next : Path} {rest : List Path}
    (h : (first :: next :: rest).Pairwise fun p q => p.le q = true)
    (hdiffers : ¬ first.same next = true) : ∀ p ∈ next :: rest, compare first p = .lt := by
  obtain ⟨hfirst, htail⟩ := List.pairwise_cons.1 h
  have hne : first.components ≠ next.components := fun heq =>
    hdiffers ((Path.same_iff first next).2 heq)
  have hlt := Path.lt_of_le_of_ne (hfirst next List.mem_cons_self) hne
  intro p hp
  rcases List.mem_cons.1 hp with rfl | hp
  · exact hlt
  · exact Std.TransCmp.lt_of_lt_of_isLE hlt ((List.pairwise_cons.1 htail).1 p hp)

theorem pairwise_le_drop_next {first next : Path} {rest : List Path}
    (h : (first :: next :: rest).Pairwise fun p q => p.le q = true) :
    (first :: rest).Pairwise fun p q => p.le q = true :=
  h.sublist ((List.sublist_cons_self next rest).cons_cons first)

theorem ascending_withoutRepeats {paths : List Path}
    (h : paths.Pairwise fun p q => p.le q = true) : Path.Ascending (withoutRepeats paths) := by
  cases paths with
  | nil => exact .nil
  | cons first rest =>
      induction rest generalizing first with
      | nil => exact List.pairwise_singleton _ first
      | cons next rest ih =>
          rw [withoutRepeats_cons_cons]
          split
          · exact ih first (pairwise_le_drop_next h)
          · rename_i hdiffers
            refine List.pairwise_cons.2 ⟨fun p hp => ?_, ih next (List.pairwise_cons.1 h).2⟩
            exact lt_of_differs h hdiffers p (mem_of_mem_withoutRepeats hp)

/-- Of a sorted list the first path of all components stays, and no other. -/
theorem mem_withoutRepeats_iff {paths : List Path}
    (h : paths.Pairwise fun p q => p.le q = true) (p : Path) :
    p ∈ withoutRepeats paths ↔ paths.find? p.same = some p := by
  cases paths with
  | nil => simp [withoutRepeats, List.eraseRepsBy]
  | cons first rest =>
      induction rest generalizing first with
      | nil =>
          have hsingle : withoutRepeats [first] = [first] := rfl
          rw [hsingle, List.mem_singleton, find?_same_cons, List.find?_nil]
          by_cases hp : p = first
          · simp [hp]
          · split <;> simp [hp, Ne.symm hp]
      | cons next rest ih =>
          rw [withoutRepeats_cons_cons]
          split
          · rename_i hsame
            have heq : p.same next = p.same first := by
              rw [Bool.eq_iff_iff, Path.same_iff, Path.same_iff, (Path.same_iff first next).1 hsame]
            rw [ih first (pairwise_le_drop_next h)]
            simp only [find?_same_cons, heq]
            split <;> rfl
          · rename_i hdiffers
            rw [List.mem_cons, ih next (List.pairwise_cons.1 h).2, find?_same_cons first]
            split
            · rename_i hsame
              have habsent : (next :: rest).find? p.same ≠ some p := by
                intro hfound
                have hlt := lt_of_differs h hdiffers p (List.mem_of_find?_eq_some hfound)
                rw [(Path.compare_eq_iff first p).2 ((Path.same_iff p first).1 hsame).symm] at hlt
                cases hlt
              rw [or_iff_left habsent, Option.some.injEq]
              exact eq_comm
            · rename_i hother
              have hp : p ≠ first := by
                rintro rfl
                exact hother ((Path.same_iff p p).2 rfl)
              rw [or_iff_right hp]

end Repeats

/-- What is found at one root. -/
def foundAt (w : Workspace) (f : Filter) (root : Path) : List Path :=
  match w.discover f root with
  | .ok found => found
  | .error _ => []

/-- The dumps found at several roots. -/
def dumps (w : Workspace) (f : Filter) (roots : List Path) : List Path :=
  withoutRepeats ((roots.flatMap (w.foundAt f)).mergeSort Path.le)

/-- The path leads to a file or a directory. -/
def Present (w : Workspace) (p : Path) : Prop := ∃ place, w.resolve p = .ok place

/-- The root is one of the roots, or names that are not hidden lead down to it from a
directory among them. -/
def Covered (w : Workspace) (roots : List Path) (root : Path) : Prop :=
  root ∈ roots ∨ ∃ base ∈ roots, ∃ place names, w.resolve base = .ok place ∧
    w.tree.isDirectory place = true ∧
    (∀ name ∈ names, IsName name ∧ ¬ IsHidden name) ∧ root = base.under names

/-- No dump is found under two spellings of its path. -/
def SpelledOnce (w : Workspace) (f : Filter) (roots : List Path) : Prop :=
  ∀ root ∈ roots, ∀ p ∈ w.foundAt f root, ∀ other ∈ roots, ∀ q ∈ w.foundAt f other,
    p.components = q.components → p = q

section Roots

variable {w : Workspace} {f : Filter} {roots : List Path}

theorem discover_of_present {root : Path} (h : w.Present root) :
    w.discover f root = .ok (w.foundAt f root) := by
  obtain ⟨place, hplace⟩ := h
  rw [foundAt, discover, discoverBy, hplace]
  dsimp only
  split <;> rfl

theorem mapM_discover (h : ∀ root ∈ roots, w.Present root) :
    roots.mapM (w.discover f) = .ok (roots.map (w.foundAt f)) := by
  induction roots with
  | nil => rfl
  | cons root rest ih =>
      rw [List.mapM_cons, discover_of_present (h root List.mem_cons_self),
        ih fun r hr => h r (List.mem_cons_of_mem root hr)]
      rfl

theorem discoverAll_eq (h : ∀ root ∈ roots, w.Present root) :
    w.discoverAll f roots = .ok (w.dumps f roots) := by
  rw [discoverAll, mapM_discover h, dumps, List.flatMap_def]
  rfl

theorem ascending_dumps (w : Workspace) (f : Filter) (roots : List Path) :
    Path.Ascending (w.dumps f roots) :=
  ascending_withoutRepeats (Path.pairwise_le_mergeSort _)

/-- Of the spellings under which a dump is found the first one is listed. -/
theorem mem_dumps_iff (p : Path) :
    p ∈ w.dumps f roots ↔ (roots.flatMap (w.foundAt f)).find? p.same = some p := by
  rw [dumps, mem_withoutRepeats_iff (Path.pairwise_le_mergeSort _), Path.find?_mergeSort]

theorem mem_of_mem_dumps {p : Path} (h : p ∈ w.dumps f roots) :
    ∃ root ∈ roots, p ∈ w.foundAt f root :=
  List.mem_flatMap.1 (List.mem_of_find?_eq_some ((mem_dumps_iff p).1 h))

theorem exists_mem_dumps {root p : Path} (hroot : root ∈ roots) (hp : p ∈ w.foundAt f root) :
    ∃ d ∈ w.dumps f roots, d.components = p.components := by
  have hmem : p ∈ roots.flatMap (w.foundAt f) := List.mem_flatMap.2 ⟨root, hroot, hp⟩
  have hsome : ((roots.flatMap (w.foundAt f)).find? p.same).isSome := by
    rw [List.find?_isSome]
    exact ⟨p, hmem, (Path.same_iff p p).2 rfl⟩
  obtain ⟨d, hd⟩ := Option.isSome_iff_exists.1 hsome
  have hcomponents : p.components = d.components := (Path.same_iff p d).1 (List.find?_some hd)
  refine ⟨d, (mem_dumps_iff d).2 ?_, hcomponents.symm⟩
  have hlookup : Path.same d = Path.same p := by
    funext q
    rw [Bool.eq_iff_iff, Path.same_iff, Path.same_iff, hcomponents]
  rw [hlookup, hd]

theorem mem_map_components_dumps_iff (c : List Component) :
    c ∈ (w.dumps f roots).map Path.components ↔
      ∃ root ∈ roots, ∃ p ∈ w.foundAt f root, p.components = c := by
  rw [List.mem_map]
  constructor
  · rintro ⟨d, hd, rfl⟩
    obtain ⟨root, hroot, hfound⟩ := mem_of_mem_dumps hd
    exact ⟨root, hroot, d, hfound, rfl⟩
  · rintro ⟨root, hroot, p, hp, rfl⟩
    exact exists_mem_dumps hroot hp

theorem mem_foundAt_iff (hplain : w.tree.IsPlain) {root : Path} {place : Place}
    (hroot : w.resolve root = .ok place) (p : Path) :
    p ∈ w.foundAt f root ↔ w.takes Glob.accepts f p = true ∧
      if w.tree.isDirectory place then OpenBelow root p else p = root := by
  by_cases hdirectory : w.tree.isDirectory place = true
  · rw [foundAt, discover, discoverBy_eq_of_isDirectory Glob.accepts f hroot hdirectory,
      if_pos hdirectory]
    exact (mem_walk_sorted_iff hplain hroot Glob.accepts f p).trans and_comm
  · have hfile : w.isFile root = true := by
      rw [isFile, hroot]
      simpa using hdirectory
    rw [foundAt, discover, discoverBy, hroot]
    dsimp only
    rw [if_neg hdirectory, if_neg hdirectory, takes]
    dsimp only
    split
    · rename_i haccepts
      rw [List.mem_singleton]
      constructor
      · rintro rfl
        exact ⟨Bool.and_eq_true_iff.2 ⟨hfile, haccepts⟩, rfl⟩
      · exact fun h => h.2
    · rename_i hrejects
      simp only [List.not_mem_nil, false_iff, Bool.and_eq_true, not_and]
      rintro ⟨-, haccepts⟩ rfl
      exact hrejects haccepts

theorem takes_of_mem_foundAt (hplain : w.tree.IsPlain) {root p : Path} (hroot : w.Present root)
    (hp : p ∈ w.foundAt f root) : w.takes Glob.accepts f p = true := by
  obtain ⟨place, hplace⟩ := hroot
  exact ((mem_foundAt_iff hplain hplace p).1 hp).1

theorem openBelow_under {base : Path} {names : List Bytes}
    (hnames : ∀ name ∈ names, IsName name ∧ ¬ IsHidden name) {p : Path}
    (h : OpenBelow (base.under names) p) : OpenBelow base p := by
  obtain ⟨below, hne, hbelow, hopen, rfl⟩ := h
  refine ⟨names ++ below, List.append_ne_nil_of_right_ne_nil names hne, ?_, ?_,
    (base.under_append names below).symm⟩
  · intro name hname
    rcases List.mem_append.1 hname with hname | hname
    · exact (hnames name hname).1
    · exact hbelow name hname
  · rw [List.dropLast_append_of_ne_nil hne]
    intro name hname
    rcases List.mem_append.1 hname with hname | hname
    · exact isSkippedName_of_not_isHidden (hnames name hname).2
    · exact hopen name hname

/-- Below a directory nothing is found that is not found from it already. -/
theorem mem_foundAt_of_covered (hplain : w.tree.IsPlain) {root p : Path}
    (hroot : w.Present root ∧ w.Covered roots root) (hp : p ∈ w.foundAt f root) :
    ∃ base ∈ roots, p ∈ w.foundAt f base := by
  obtain ⟨⟨place', hplace'⟩, hcovered⟩ := hroot
  obtain hroot | ⟨base, hbase, place, names, hplace, hdirectory, hnames, rfl⟩ := hcovered
  · exact ⟨root, hroot, hp⟩
  · obtain ⟨htakes, hbelow⟩ := (mem_foundAt_iff hplain hplace' p).1 hp
    refine ⟨base, hbase, ?_⟩
    rw [mem_foundAt_iff hplain hplace, if_pos hdirectory]
    refine ⟨htakes, ?_⟩
    split at hbelow
    · exact openBelow_under hnames hbelow
    · rename_i hfile
      subst hbelow
      refine ⟨names, ?_, fun name hname => (hnames name hname).1,
        fun name hname => isSkippedName_of_not_isHidden
          (hnames name ((List.dropLast_sublist names).subset hname)).2, rfl⟩
      rintro rfl
      -- Without names the file would be the directory itself.
      have hsame : place' = place := Except.ok.inj (hplace'.symm.trans hplace)
      exact hfile (hsame ▸ hdirectory)

/-- Roots that are covered add nothing behind the others. -/
theorem dumps_append (hplain : w.tree.IsPlain) {more : List Path}
    (hmore : ∀ root ∈ more, w.Present root ∧ w.Covered roots root) :
    w.dumps f (roots ++ more) = w.dumps f roots := by
  refine (ascending_dumps w f _).ext (ascending_dumps w f roots) fun p => ?_
  rw [mem_dumps_iff, mem_dumps_iff, List.flatMap_append, List.find?_append]
  cases hfind : (roots.flatMap (w.foundAt f)).find? p.same with
  | some q => rfl
  | none =>
      have hnone : (more.flatMap (w.foundAt f)).find? p.same = none := by
        refine List.find?_eq_none.2 fun q hq => ?_
        obtain ⟨root, hroot, hq⟩ := List.mem_flatMap.1 hq
        have hfound := mem_foundAt_of_covered hplain (hmore root hroot) hq
        exact List.find?_eq_none.1 hfind q (List.mem_flatMap.2 hfound)
      rw [hnone]
      rfl

section Others

variable {others : List Path} (hplain : w.tree.IsPlain) (hsubset : ∀ root ∈ roots, root ∈ others)
variable (hothers : ∀ root ∈ others, w.Present root ∧ w.Covered roots root)

include hplain hsubset hothers

/-- Roots that cover each other find the same dumps, as far as components tell. -/
theorem map_components_dumps (f : Filter) :
    (w.dumps f others).map Path.components = (w.dumps f roots).map Path.components := by
  refine (ascending_dumps w f others).map_components_eq (ascending_dumps w f roots) fun c => ?_
  rw [mem_map_components_dumps_iff, mem_map_components_dumps_iff]
  constructor
  · rintro ⟨root, hroot, p, hp, rfl⟩
    obtain ⟨base, hbase, hfound⟩ := mem_foundAt_of_covered hplain (hothers root hroot) hp
    exact ⟨base, hbase, p, hfound, rfl⟩
  · rintro ⟨root, hroot, p, hp, rfl⟩
    exact ⟨root, hsubset root hroot, p, hp, rfl⟩

/-- Where no dump is found under two spellings they find the same paths. -/
theorem dumps_eq_of_spelledOnce (honce : w.SpelledOnce f roots) :
    w.dumps f others = w.dumps f roots := by
  have hsame : ∀ p ∈ w.dumps f others, ∀ q ∈ w.dumps f roots, p.components = q.components →
      p = q := by
    intro p hp q hq
    obtain ⟨root, hroot, hp⟩ := mem_of_mem_dumps hp
    obtain ⟨base, hbase, hp⟩ := mem_foundAt_of_covered hplain (hothers root hroot) hp
    obtain ⟨other, hother, hq⟩ := mem_of_mem_dumps hq
    exact honce base hbase p hp other hother q hq
  have hcomponents := map_components_dumps hplain hsubset hothers f
  refine (ascending_dumps w f others).ext (ascending_dumps w f roots) fun p => ⟨fun hp => ?_,
    fun hp => ?_⟩
  · obtain ⟨q, hq, hpq⟩ := List.mem_map.1 (hcomponents ▸ List.mem_map_of_mem hp)
    rwa [hsame p hp q hq hpq.symm]
  · obtain ⟨q, hq, hpq⟩ := List.mem_map.1 (hcomponents.symm ▸ List.mem_map_of_mem hp)
    rwa [← hsame q hq p hp hpq]

end Others

end Roots

end Coverage.Workspace
