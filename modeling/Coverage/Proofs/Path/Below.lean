import Coverage.Proofs.Path

/-!
Paths below a root. Names that are joined to a root one by one are its further
components, and they are the last pieces of the path.
-/
namespace Coverage.Path

open Component (IsName IsInner)

/-- The path that leads down from a root by the given names. -/
def under (root : Path) (names : List Bytes) : Path :=
  names.foldl (fun p name => p.join ⟨name⟩) root

theorem under_singleton (root : Path) (name : Bytes) : root.under [name] = root.join ⟨name⟩ := rfl

theorem under_append (root : Path) (above below : List Bytes) :
    root.under (above ++ below) = (root.under above).under below :=
  List.foldl_append

theorem components_under (root : Path) {names : List Bytes} (h : ∀ name ∈ names, IsName name) :
    (root.under names).components = root.components ++ names.map .name := by
  induction names generalizing root with
  | nil => simp [under]
  | cons name rest ih =>
      have hrest := ih (root.join ⟨name⟩) fun n hn => h n (List.mem_cons_of_mem name hn)
      rw [components_join_name root (h name List.mem_cons_self)] at hrest
      simpa [under] using hrest

theorem isAbsolute_under {root : Path} (hroot : root.components ≠ []) {names : List Bytes}
    (h : ∀ name ∈ names, IsName name) : (root.under names).isAbsolute = root.isAbsolute := by
  obtain ⟨c, rest, hcons⟩ := List.exists_cons_of_ne_nil hroot
  rw [isAbsolute, isAbsolute, components_under root h, hcons]
  rfl

theorem inner_under (root : Path) {names : List Bytes} (h : ∀ name ∈ names, IsName name) :
    (root.under names).inner = root.inner ++ names.map .name := by
  rw [inner, inner, components_under root h, List.filter_append]
  congr 1
  refine List.filter_eq_self.2 fun c hc => ?_
  obtain ⟨name, -, rfl⟩ := List.mem_map.1 hc
  rfl

theorem isAbsolute_name {name : Bytes} (h : IsName name) : isAbsolute ⟨name⟩ = false := by
  have habsolute := isAbsolute_of_isInner (IsInner.name h)
  exact habsolute

/-- The name is the last piece, and the pieces before it are the path's, but for an empty one
at its end. -/
theorem segments_join_name {p : Path} (hp : p.bytes ≠ []) {name : Bytes} (h : IsName name) :
    ∃ before, (p.join ⟨name⟩).segments = before ++ [name] ∧
      (p.segments = before ∨ p.segments = before ++ [[]]) := by
  have hname : segments ⟨name⟩ = [name] := segments_of_not_mem h.1
  rcases join_cases hp (isAbsolute_name h) with ⟨front, rfl, hjoin⟩ | ⟨-, hjoin⟩
  · exact ⟨segments ⟨front⟩, by rw [hjoin, segments_append, hname], .inr (segments_trailing front)⟩
  · exact ⟨p.segments, by rw [hjoin, segments_append, hname], .inl rfl⟩

theorem filterMap_eq_inner {p : Path} {before : List Bytes}
    (h : p.segments = before ∨ p.segments = before ++ [[]]) :
    before.filterMap Component.ofSegment? = p.inner := by
  rw [← filterMap_segments]
  rcases h with hsegments | hsegments
  · rw [hsegments]
  · rw [hsegments, List.filterMap_append]
    exact (List.append_nil _).symm

theorem getLast?_join_name {p : Path} (hp : p.bytes ≠ []) {name : Bytes} (h : IsName name) :
    (p.join ⟨name⟩).bytes.getLast? = some (name.getLast h.2.1) := by
  have hlast : name.getLast? = some (name.getLast h.2.1) := List.getLast?_eq_some_getLast h.2.1
  rcases join_cases hp (isAbsolute_name h) with ⟨front, rfl, hjoin⟩ | ⟨-, hjoin⟩ <;>
    rw [hjoin, List.getLast?_append, List.getLast?_cons, hlast]
  · rfl
  · rfl

theorem bytes_join_name_ne (p : Path) {name : Bytes} (h : IsName name) :
    (p.join ⟨name⟩).bytes ≠ [] := by
  rw [ne_eq, bytes_eq_nil_iff, components_join_name p h]
  exact List.append_ne_nil_of_right_ne_nil _ (List.cons_ne_nil _ _)

/-- Behind a name there is no separator. -/
theorem getLast?_join_name_ne {p : Path} (hp : p.bytes ≠ []) {name : Bytes} (h : IsName name) :
    (p.join ⟨name⟩).bytes.getLast? ≠ some slash := by
  rw [getLast?_join_name hp h]
  intro hslash
  exact h.1 (Option.some.inj hslash ▸ List.getLast_mem h.2.1)

/-- Below a path without a separator at its end the names are the next pieces. -/
theorem segments_under {p : Path} (hp : p.bytes ≠ []) (hends : p.bytes.getLast? ≠ some slash)
    {names : List Bytes} (h : ∀ name ∈ names, IsName name) :
    (p.under names).segments = p.segments ++ names := by
  induction names generalizing p with
  | nil => simp [under]
  | cons name rest ih =>
      have hname := h name List.mem_cons_self
      have hjoin : p.join ⟨name⟩ = ⟨p.bytes ++ slash :: name⟩ := by
        rcases join_cases hp (isAbsolute_name hname) with ⟨front, rfl, -⟩ | ⟨-, hjoin⟩
        · exact absurd List.getLast?_concat hends
        · exact hjoin
      have hsegments : (p.join ⟨name⟩).segments = p.segments ++ [name] := by
        rw [hjoin, segments_append]
        exact congrArg (p.segments ++ ·) (segments_of_not_mem hname.1)
      have hrest := ih (p.bytes_join_name_ne hname) (getLast?_join_name_ne hp hname)
        fun n hn => h n (List.mem_cons_of_mem name hn)
      rw [hsegments, List.append_assoc] at hrest
      exact hrest

/-- Every name below a root is a piece, and before it stand the pieces of the names
above it. -/
theorem exists_segments_under {root : Path} (hroot : root.bytes ≠ []) {above below : List Bytes}
    {name : Bytes} (h : ∀ n ∈ above ++ name :: below, IsName n) :
    ∃ before, (root.under (above ++ name :: below)).segments = before ++ name :: below ∧
      ((root.under above).segments = before ∨
        (root.under above).segments = before ++ [[]]) := by
  have habove : ∀ n ∈ above, IsName n := fun n hn => h n (List.mem_append_left _ hn)
  have hname : IsName name := h name (List.mem_append_right _ List.mem_cons_self)
  have hbelow : ∀ n ∈ below, IsName n := fun n hn =>
    h n (List.mem_append_right _ (List.mem_cons_of_mem name hn))
  have hbytes : (root.under above).bytes ≠ [] := by
    rw [ne_eq, bytes_eq_nil_iff, components_under root habove] at *
    exact List.append_ne_nil_of_left_ne_nil hroot _
  obtain ⟨before, hsegments, hbefore⟩ := segments_join_name hbytes hname
  refine ⟨before, ?_, hbefore⟩
  have hsplit : root.under (above ++ name :: below) =
      ((root.under above).join ⟨name⟩).under below := by
    rw [under_append]
    rfl
  rw [hsplit, segments_under ((root.under above).bytes_join_name_ne hname)
    (getLast?_join_name_ne hbytes hname) hbelow, hsegments, List.append_assoc]
  rfl

end Coverage.Path
