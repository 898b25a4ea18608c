import Coverage.FileTree.Walk
import Coverage.Proofs.FileTree

/-!
Walks of trees without links. Such a walk lists the files that names lead down to
through directories that are all entered, each of them once.
-/
namespace Coverage.FileTree

open Component (IsName)

/-- The names lead down from the place to a file, through directories that are entered;
the place goes by the path `shown`. -/
inductive Reaches (t : FileTree) (enters : Path → Bytes → Bool) :
    Place → Path → List Bytes → Prop where
  | file {place : Place} {shown : Path} {name : Bytes} (h : t.HoldsFile (place ++ [name])) :
      Reaches t enters place shown [name]
  | directory {place : Place} {shown : Path} {name : Bytes} {below : List Bytes}
      (hdirectory : t.isDirectory (place ++ [name]) = true)
      (henters : enters (shown.join ⟨name⟩) name = true)
      (h : Reaches t enters (place ++ [name]) (shown.join ⟨name⟩) below) :
      Reaches t enters place shown (name :: below)

variable {t : FileTree} {enters : Path → Bytes → Bool}

theorem Reaches.ne_nil {place : Place} {shown : Path} {names : List Bytes}
    (h : t.Reaches enters place shown names) : names ≠ [] := by
  cases h <;> simp

theorem Reaches.holdsFile {place : Place} {shown : Path} {names : List Bytes}
    (h : t.Reaches enters place shown names) : t.HoldsFile (place ++ names) := by
  induction h with
  | file h => exact h
  | directory _ _ _ ih => rwa [List.append_assoc] at ih

/-- Every directory on the way is entered, and all that is needed besides is the way. -/
theorem reaches_iff {place : Place} {shown : Path} {names : List Bytes} :
    t.Reaches enters place shown names ↔
      names ≠ [] ∧ t.HoldsFile (place ++ names) ∧
        ∀ above name below, names = above ++ name :: below → below ≠ [] →
          t.isDirectory (place ++ above ++ [name]) = true ∧
            enters (shown.under (above ++ [name])) name = true := by
  induction names generalizing place shown with
  | nil => exact ⟨fun h => absurd rfl h.ne_nil, fun h => absurd rfl h.1⟩
  | cons first rest ih =>
      constructor
      · intro h
        refine ⟨by simp, h.holdsFile, ?_⟩
        intro above name below hsplit hbelow
        cases h with
        | file h =>
            cases above with
            | nil => exact absurd (List.cons.inj hsplit).2.symm hbelow
            | cons segment above => simp at hsplit
        | directory hdirectory henters h =>
            cases above with
            | nil =>
                obtain ⟨rfl, rfl⟩ := List.cons.inj hsplit
                rw [List.append_nil]
                exact ⟨hdirectory, henters⟩
            | cons segment above =>
                obtain ⟨rfl, rfl⟩ := List.cons.inj hsplit
                have hnext := (ih.1 h).2.2 above name below rfl hbelow
                rwa [List.append_assoc place] at hnext
      · rintro ⟨-, hfile, hway⟩
        cases rest with
        | nil => exact .file hfile
        | cons next rest =>
            obtain ⟨hdirectory, henters⟩ := hway [] first (next :: rest) rfl (by simp)
            rw [List.append_nil] at hdirectory
            refine .directory hdirectory henters (ih.2 ⟨by simp, ?_, ?_⟩)
            · rwa [List.append_assoc]
            · intro above name below hsplit hbelow
              have hnext := hway (first :: above) name below (by rw [hsplit]; rfl) hbelow
              rw [List.append_assoc place]
              exact hnext

namespace IsPlain

variable (h : t.IsPlain)

include h

theorem step_eq_directory_iff (trail : List Place) {place next : Place} {name : Bytes} :
    t.step trail place name = .directory next ↔
      t.isDirectory (place ++ [name]) = true ∧ next = place ++ [name] := by
  unfold step
  split
  · rename_i hdirectory
    simp [hdirectory, eq_comm]
  · rename_i hdirectory
    simp only [hdirectory]
    split
    · rename_i target hlink
      exact absurd hlink (h.find?_ne_link _ target)
    · simp
    · simp

theorem step_eq_file_iff (trail : List Place) {place : Place} {name : Bytes} :
    t.step trail place name = .file ↔ t.HoldsFile (place ++ [name]) := by
  unfold step
  split
  · rename_i hdirectory
    have hnofile : ¬ t.HoldsFile (place ++ [name]) := by
      intro hfile
      rw [isDirectory_of_holdsFile (by simp) hfile] at hdirectory
      cases hdirectory
    simp [hnofile]
  · split
    · rename_i target hlink
      exact absurd hlink (h.find?_ne_link _ target)
    · rename_i content hfile
      simp [HoldsFile, hfile]
    · rename_i hnolink hnofile
      simp only [reduceCtorEq, HoldsFile, false_iff, not_exists]
      exact fun content hfile => hnofile content hfile

/-- Each name of a directory has its part in the walk. -/
theorem walk_eq_flatMap (enters : Path → Bytes → Bool) (trail : List Place) (place : Place)
    (shown : Path) :
    ∃ part : Bytes → List Path, t.walk enters trail place shown = (t.names place).flatMap part ∧
      ∀ name,
        (t.HoldsFile (place ++ [name]) ∧ part name = [shown.join ⟨name⟩]) ∨
        (t.isDirectory (place ++ [name]) = true ∧ enters (shown.join ⟨name⟩) name = true ∧
          part name =
            t.walk enters ((place ++ [name]) :: trail) (place ++ [name]) (shown.join ⟨name⟩)) ∨
        (¬ t.HoldsFile (place ++ [name]) ∧
          (t.isDirectory (place ++ [name]) = true → enters (shown.join ⟨name⟩) name = false) ∧
          part name = []) := by
  refine ⟨_, walk.eq_1 t enters trail place shown, fun name => ?_⟩
  dsimp only
  split
  · rename_i hstep
    have hfile : ¬ t.HoldsFile (place ++ [name]) := fun hfile => by
      rw [(h.step_eq_file_iff trail).2 hfile] at hstep
      cases hstep
    have hdirectory : ¬ t.isDirectory (place ++ [name]) = true := fun hdirectory => by
      rw [(h.step_eq_directory_iff trail).2 ⟨hdirectory, rfl⟩] at hstep
      cases hstep
    exact .inr (.inr ⟨hfile, fun hnext => absurd hnext hdirectory, rfl⟩)
  · rename_i hstep
    exact .inl ⟨(h.step_eq_file_iff trail).1 hstep, rfl⟩
  · rename_i next hstep
    obtain ⟨hdirectory, rfl⟩ := (h.step_eq_directory_iff trail).1 hstep
    have hfile : ¬ t.HoldsFile (place ++ [name]) := fun hfile => by
      rw [isDirectory_of_holdsFile (by simp) hfile] at hdirectory
      cases hdirectory
    by_cases henters : enters (shown.join ⟨name⟩) name = true
    · exact .inr (.inl ⟨hdirectory, henters, if_pos henters⟩)
    · exact .inr (.inr ⟨hfile, fun _ => by simpa using henters, if_neg henters⟩)

theorem mem_walk_of_reaches {place : Place} {shown : Path} {names : List Bytes}
    (hreaches : t.Reaches enters place shown names) (trail : List Place) :
    shown.under names ∈ t.walk enters trail place shown := by
  induction hreaches generalizing trail with
  | @file place shown name hfile =>
      obtain ⟨part, hwalk, hpart⟩ := h.walk_eq_flatMap enters trail place shown
      rw [hwalk, List.mem_flatMap]
      refine ⟨name, (t.mem_names_iff place name).2 ⟨_, hfile.choose_spec⟩, ?_⟩
      rcases hpart name with ⟨-, hname⟩ | ⟨hdirectory, -, -⟩ | ⟨hnofile, -, -⟩
      · rw [hname]
        exact List.mem_singleton.2 rfl
      · rw [isDirectory_of_holdsFile (by simp) hfile] at hdirectory
        cases hdirectory
      · exact absurd hfile hnofile
  | @directory place shown name below hdirectory henters _ ih =>
      obtain ⟨part, hwalk, hpart⟩ := h.walk_eq_flatMap enters trail place shown
      rw [hwalk, List.mem_flatMap]
      have hentry := ((t.isDirectory_iff _).1 hdirectory).resolve_left (by simp)
      refine ⟨name, (t.mem_names_iff place name).2 ⟨_, hentry⟩, ?_⟩
      rcases hpart name with ⟨hfile, -⟩ | ⟨-, -, hname⟩ | ⟨-, hstays, -⟩
      · rw [isDirectory_of_holdsFile (by simp) hfile] at hdirectory
        cases hdirectory
      · rw [hname]
        exact ih _
      · rw [hstays hdirectory] at henters
        cases henters

theorem reaches_of_mem_walk {trail : List Place} {place : Place} {shown p : Path}
    (hp : p ∈ t.walk enters trail place shown) :
    ∃ names, t.Reaches enters place shown names ∧ p = shown.under names := by
  induction trail, place, shown using walk.induct t with
  | case1 trail place shown ih =>
      obtain ⟨part, hwalk, hpart⟩ := h.walk_eq_flatMap enters trail place shown
      rw [hwalk, List.mem_flatMap] at hp
      obtain ⟨name, -, hp⟩ := hp
      rcases hpart name with ⟨hfile, hname⟩ | ⟨hdirectory, henters, hname⟩ | ⟨-, -, hname⟩
      · rw [hname, List.mem_singleton] at hp
        exact ⟨[name], .file hfile, hp⟩
      · rw [hname] at hp
        obtain ⟨below, hbelow, rfl⟩ :=
          ih name _ ((h.step_eq_directory_iff trail).2 ⟨hdirectory, rfl⟩) hp
        exact ⟨name :: below, .directory hdirectory henters hbelow, rfl⟩
      · rw [hname] at hp
        exact absurd hp List.not_mem_nil

theorem mem_walk_iff {trail : List Place} {place : Place} {shown p : Path} :
    p ∈ t.walk enters trail place shown ↔
      ∃ names, t.Reaches enters place shown names ∧ p = shown.under names := by
  constructor
  · exact h.reaches_of_mem_walk
  · rintro ⟨names, hreaches, rfl⟩
    exact h.mem_walk_of_reaches hreaches trail

theorem isName_of_reaches {place : Place} {shown : Path} {names : List Bytes}
    (hreaches : t.Reaches enters place shown names) : ∀ name ∈ names, IsName name := by
  intro name hname
  exact h.isName_of_find? hreaches.holdsFile.choose_spec (List.mem_append_right place hname)

theorem components_of_reaches {place : Place} {shown : Path} {names : List Bytes}
    (hreaches : t.Reaches enters place shown names) :
    (shown.under names).components = shown.components ++ names.map .name :=
  shown.components_under (h.isName_of_reaches hreaches)

/-- No file is met twice. -/
theorem pairwise_walk (enters : Path → Bytes → Bool) (trail : List Place) (place : Place)
    (shown : Path) :
    (t.walk enters trail place shown).Pairwise fun p q => p.components ≠ q.components := by
  induction trail, place, shown using walk.induct t with
  | case1 trail place shown ih =>
      obtain ⟨part, hwalk, hpart⟩ := h.walk_eq_flatMap enters trail place shown
      -- What lies under a name goes on with that name behind the components of the root.
      have hfront : ∀ name ∈ t.names place, ∀ p ∈ part name, ∃ below,
          p.components = shown.components ++ .name name :: below := by
        intro name hname p hp
        obtain ⟨entry, hentry⟩ := (t.mem_names_iff place name).1 hname
        have hjoin := shown.components_join_name
          (h.isName_of_find? hentry (List.mem_append_right place List.mem_cons_self))
        rcases hpart name with ⟨-, heq⟩ | ⟨-, -, heq⟩ | ⟨-, -, heq⟩
        · rw [heq, List.mem_singleton] at hp
          exact ⟨[], by rw [hp, hjoin]⟩
        · rw [heq] at hp
          obtain ⟨names, hreaches, rfl⟩ := h.reaches_of_mem_walk hp
          refine ⟨names.map .name, ?_⟩
          rw [h.components_of_reaches hreaches, hjoin, List.append_assoc]
          rfl
        · rw [heq] at hp
          exact absurd hp List.not_mem_nil
      rw [hwalk, List.pairwise_flatMap]
      constructor
      · intro name _
        rcases hpart name with ⟨-, heq⟩ | ⟨hdirectory, -, heq⟩ | ⟨-, -, heq⟩
        · rw [heq]
          exact List.pairwise_singleton _ _
        · rw [heq]
          exact ih name _ ((h.step_eq_directory_iff trail).2 ⟨hdirectory, rfl⟩)
        · rw [heq]
          exact .nil
      · refine (t.nodup_names place).imp_of_mem fun hname hname' hne p hp q hq heq => ?_
        obtain ⟨below, hbelow⟩ := hfront _ hname p hp
        obtain ⟨below', hbelow'⟩ := hfront _ hname' q hq
        rw [hbelow, hbelow', List.append_cancel_left_eq] at heq
        exact hne (Component.name.inj (List.cons.inj heq).1)

end IsPlain

end Coverage.FileTree
