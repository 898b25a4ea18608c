import Coverage.FileTree

/-!
Walking a directory. Links are followed, except one that leads back to a
directory on the way down to it, and one that leads nowhere. The walk ends: along
a way down every link leads to a directory that is new on it, and between two
links the places only get longer.
-/
namespace Coverage.FileTree

/-- What a name in a directory stands for on a walk; `trail` holds the
directories on the way down. -/
inductive Step where
  | nothing
  | file
  | directory (place : Place)
deriving DecidableEq

def linkStep (t : FileTree) (trail : List Place) (place : Place) (name : Bytes) : Step :=
  match t.follow maxLinks place [name] with
  | .error _ => .nothing
  | .ok target =>
      if t.isDirectory target then
        if target ∈ trail then .nothing else .directory target
      else .file

def step (t : FileTree) (trail : List Place) (place : Place) (name : Bytes) : Step :=
  if t.isDirectory (place ++ [name]) then .directory (place ++ [name])
  else
    match t.find? (place ++ [name]) with
    | some (.link _) => t.linkStep trail place name
    | some (.file _) => .file
    | _ => .nothing

/-- No directory lies deeper. -/
def depth (t : FileTree) : Nat := (t.directories.map List.length).foldl max 0

/-- How many directories are not yet on the way down. -/
def untrodden (t : FileTree) (trail : List Place) : Nat :=
  t.directories.countP fun d => d ∉ trail

def remaining (t : FileTree) (trail : List Place) (place : Place) : Nat :=
  t.untrodden trail * (t.depth + 1) + (t.depth - place.length)

theorem le_foldl_max (l : List Nat) (start : Nat) :
    start ≤ l.foldl max start ∧ ∀ n ∈ l, n ≤ l.foldl max start := by
  induction l generalizing start with
  | nil => simp
  | cons m rest ih =>
      obtain ⟨hstart, hrest⟩ := ih (max start m)
      simp only [List.foldl_cons, List.mem_cons, forall_eq_or_imp]
      exact ⟨by omega, by omega, hrest⟩

theorem length_le_depth {t : FileTree} {place : Place} (h : t.isDirectory place) :
    place.length ≤ t.depth := by
  have hmem : place ∈ t.directories := by simpa [isDirectory] using h
  exact (le_foldl_max _ 0).2 _ (List.mem_map_of_mem hmem)

theorem countP_lt_countP {α : Type} {p q : α → Bool} {l : List α}
    (hle : ∀ a ∈ l, p a → q a) {a : α} (ha : a ∈ l) (hq : q a) (hp : ¬p a) :
    l.countP p < l.countP q := by
  induction l with
  | nil => simp at ha
  | cons b rest ih =>
      have hrest : ∀ a ∈ rest, p a → q a := fun a ha => hle a (List.mem_cons_of_mem _ ha)
      have hmono : rest.countP p ≤ rest.countP q := List.countP_mono_left hrest
      simp only [List.countP_cons]
      rcases List.mem_cons.1 ha with rfl | ha
      · simp only [hq, hp, if_true]
        simp only [Bool.false_eq_true, if_false]
        omega
      · have hlt := ih hrest ha
        have hb : p b → q b := hle b List.mem_cons_self
        by_cases hpb : p b
        · simp only [hpb, hb hpb, if_true]
          omega
        · simp only [hpb, Bool.false_eq_true, if_false]
          omega

theorem untrodden_cons_le (t : FileTree) (trail : List Place) (place : Place) :
    t.untrodden (place :: trail) ≤ t.untrodden trail := by
  refine List.countP_mono_left fun d _ hd => ?_
  simp only [decide_eq_true_eq, List.mem_cons, not_or] at hd ⊢
  exact hd.2

theorem untrodden_cons_lt {t : FileTree} {trail : List Place} {place : Place}
    (hdir : t.isDirectory place) (hnew : place ∉ trail) :
    t.untrodden (place :: trail) < t.untrodden trail := by
  have hmem : place ∈ t.directories := by simpa [isDirectory] using hdir
  refine countP_lt_countP (fun d _ hd => ?_) hmem (by simpa using hnew) (by simp)
  simp only [decide_eq_true_eq, List.mem_cons, not_or] at hd ⊢
  exact hd.2

theorem remaining_link_lt {t : FileTree} {trail : List Place} {place target : Place}
    (hdir : t.isDirectory target) (hnew : target ∉ trail) :
    t.remaining (target :: trail) target < t.remaining trail place := by
  have hlt := untrodden_cons_lt hdir hnew
  have hmul : (t.untrodden (target :: trail) + 1) * (t.depth + 1) ≤
      t.untrodden trail * (t.depth + 1) := Nat.mul_le_mul_right _ hlt
  simp only [remaining, Nat.add_mul, Nat.one_mul] at hmul ⊢
  omega

theorem remaining_name_lt {t : FileTree} {trail : List Place} {place : Place} {name : Bytes}
    (hdir : t.isDirectory (place ++ [name])) :
    t.remaining ((place ++ [name]) :: trail) (place ++ [name]) < t.remaining trail place := by
  have hle := untrodden_cons_le t trail (place ++ [name])
  have hmul := Nat.mul_le_mul_right (t.depth + 1) hle
  have hdepth := length_le_depth hdir
  simp only [List.length_append, List.length_singleton] at hdepth
  simp only [remaining, List.length_append, List.length_singleton]
  omega

theorem remaining_step_lt {t : FileTree} {trail : List Place} {place next : Place} {name : Bytes}
    (h : t.step trail place name = .directory next) :
    t.remaining (next :: trail) next < t.remaining trail place := by
  unfold step at h
  split at h
  · rename_i hdir
    cases h
    exact remaining_name_lt hdir
  · split at h
    · unfold linkStep at h
      split at h
      · cases h
      · split at h
        · rename_i hdir
          split at h
          · cases h
          · rename_i hnew
            cases h
            exact remaining_link_lt hdir hnew
        · cases h
    · cases h
    · cases h

/-- The files below a directory under the names by which the walk reaches them,
led by the path the directory itself goes by. A directory is entered only if
`enters` holds of its path and name. -/
def walk (t : FileTree) (enters : Path → Bytes → Bool) (trail : List Place) (place : Place)
    (shown : Path) : List Path :=
  (t.names place).flatMap fun name =>
    let path := shown.join ⟨name⟩
    match _h : t.step trail place name with
    | .nothing => []
    | .file => [path]
    | .directory next =>
        if enters path name then t.walk enters (next :: trail) next path else []
termination_by t.remaining trail place
decreasing_by exact remaining_step_lt _h

end Coverage.FileTree
