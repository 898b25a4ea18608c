import Coverage.Proofs.Path

/-!
Parents. A path loses the separators and dots at its end and then its last piece, and
with it its last component.
-/
namespace Coverage.Path

theorem ofSegment?_of_isSkipped {segment : Bytes} (h : isSkipped segment = true) :
    Component.ofSegment? segment = none := by
  simpa [isSkipped] using h

theorem exists_of_not_isSkipped {segment : Bytes} (h : isSkipped segment = false) :
    ∃ c, Component.ofSegment? segment = some c := by
  simpa [isSkipped, Option.isSome_iff_exists] using h

theorem trimEnd_isPrefix (segments : List Bytes) : trimEnd segments <+: segments := by
  refine ⟨(segments.reverse.takeWhile isSkipped).reverse, ?_⟩
  rw [trimEnd, ← List.reverse_append, List.takeWhile_append_dropWhile, List.reverse_reverse]

/-- What is trimmed away makes no component. -/
theorem filterMap_trimEnd (segments : List Bytes) :
    (trimEnd segments).filterMap Component.ofSegment? =
      segments.filterMap Component.ofSegment? := by
  have hskipped : (segments.reverse.takeWhile isSkipped).filterMap Component.ofSegment? = [] := by
    refine List.filterMap_eq_nil_iff.2 fun s hs => ofSegment?_of_isSkipped ?_
    exact List.all_eq_true.1 List.all_takeWhile s hs
  have hsplit := congrArg (List.filterMap Component.ofSegment?)
    (List.takeWhile_append_dropWhile (p := isSkipped) (l := segments.reverse))
  rw [List.filterMap_append, hskipped, List.nil_append, List.filterMap_reverse] at hsplit
  rw [trimEnd, List.filterMap_reverse, hsplit, List.reverse_reverse]

/-- The last piece that stays makes a component. -/
theorem exists_trimEnd_concat {segments : List Bytes} (h : trimEnd segments ≠ []) :
    ∃ body last c, trimEnd segments = body ++ [last] ∧ Component.ofSegment? last = some c := by
  have hhead := List.head?_dropWhile_not isSkipped segments.reverse
  cases hdrop : segments.reverse.dropWhile isSkipped with
  | nil => simp [trimEnd, hdrop] at h
  | cons last more =>
      rw [hdrop] at hhead
      obtain ⟨c, hc⟩ := exists_of_not_isSkipped hhead
      exact ⟨more.reverse, last, c, by simp [trimEnd, hdrop], hc⟩

theorem segments_intercalate {first : Bytes} {rest : List Bytes}
    (h : ∀ s ∈ first :: rest, slash ∉ s) :
    segments ⟨[slash].intercalate (first :: rest)⟩ = first :: rest := by
  induction rest generalizing first with
  | nil =>
      rw [List.intercalate_singleton]
      exact segments_of_not_mem (h first List.mem_cons_self)
  | cons next rest ih =>
      have hfirst : segments ⟨first⟩ = [first] := segments_of_not_mem (h first List.mem_cons_self)
      rw [List.intercalate_cons_cons, List.append_assoc, List.singleton_append, segments_append,
        hfirst, ih fun s hs => h s (List.mem_cons_of_mem first hs)]
      rfl

theorem components_ofSegments {first : Bytes} {rest : List Bytes}
    (h : ∀ s ∈ first :: rest, slash ∉ s) :
    (ofSegments (first :: rest)).components =
      (if first = [] then [.root] else front first rest) ++
        rest.filterMap Component.ofSegment? := by
  by_cases hroot : first = [] ∧ rest = []
  · obtain ⟨rfl, rfl⟩ := hroot
    rfl
  · have hpath : ofSegments (first :: rest) = ⟨[slash].intercalate (first :: rest)⟩ := by
      unfold ofSegments
      split
      · rename_i heq
        cases heq
        exact absurd ⟨rfl, rfl⟩ hroot
      · rfl
    rw [hpath, components_of_segments (segments_intercalate h)]
    by_cases hfirst : first = []
    · have hrest : rest ≠ [] := fun hrest => hroot ⟨hfirst, hrest⟩
      simp [front, hfirst, hrest]
    · rw [if_neg hfirst]

theorem parent?_of_trimEnd_eq_nil {p : Path} {first : Bytes} {rest : List Bytes}
    (hsegments : p.segments = first :: rest) (htrim : trimEnd rest = []) :
    (p.parent? = none ∧ (p.components = [] ∨ p.components = [.root])) ∨
      (p.parent? = some ⟨[]⟩ ∧ ∃ c, p.components = [c] ∧ c ≠ .root) := by
  have hcomponents : p.components = front first rest := by
    rw [components_of_segments hsegments, ← filterMap_trimEnd, htrim]
    exact List.append_nil _
  by_cases hfirst : first = []
  · subst hfirst
    left
    refine ⟨by simp [parent?, hsegments, htrim], ?_⟩
    rw [hcomponents]
    cases rest <;> simp [front]
  · right
    refine ⟨by simp [parent?, hsegments, htrim, hfirst], ?_⟩
    rw [hcomponents]
    exact front_of_ne hfirst rest

theorem parent?_of_trimEnd_concat {p : Path} {first last : Bytes} {rest body : List Bytes}
    {c : Component} (hsegments : p.segments = first :: rest) (htrim : trimEnd rest = body ++ [last])
    (hc : Component.ofSegment? last = some c) :
    ∃ q, p.parent? = some q ∧ p.components = q.components ++ [c] ∧ q.components ≠ [] := by
  have hrest : rest ≠ [] := by
    rintro rfl
    simp [trimEnd] at htrim
  have hslash : ∀ s ∈ first :: trimEnd body, slash ∉ s := by
    intro s hs
    refine not_mem_of_mem_segments (p := p) (hsegments ▸ ?_)
    rcases List.mem_cons.1 hs with rfl | hs
    · exact List.mem_cons_self
    · have hbody := (trimEnd_isPrefix body).subset hs
      refine List.mem_cons_of_mem first ((trimEnd_isPrefix rest).subset ?_)
      rw [htrim]
      exact List.mem_append_left [last] hbody
  have hfront : (if first = [] then [.root] else front first (trimEnd body)) =
      front first rest := by
    by_cases hfirst : first = []
    · simp [front, hfirst, hrest]
    · simp [front, hfirst]
  refine ⟨ofSegments (first :: trimEnd body), ?_, ?_, ?_⟩
  · rw [parent?, hsegments]
    simp only [htrim]
    split
    · rename_i hnil
      simp at hnil
    · rw [List.dropLast_concat]
  · rw [components_ofSegments hslash, filterMap_trimEnd, hfront, components_of_segments hsegments,
      ← filterMap_trimEnd rest, htrim, List.filterMap_append]
    simp [hc]
  · rw [components_ofSegments hslash, hfront]
    by_cases hfirst : first = []
    · simp [front, hfirst, hrest]
    · obtain ⟨d, hd, -⟩ := front_of_ne hfirst rest
      simp [hd]

/-- The root and the empty path have no parent; that of another path lacks its last
component. -/
theorem components_parent? (p : Path) :
    p.parent?.map components =
      if p.components = [] ∨ p.components = [.root] then none else some p.components.dropLast := by
  obtain ⟨first, rest, hsegments⟩ := p.exists_segments
  by_cases htrim : trimEnd rest = []
  · rcases parent?_of_trimEnd_eq_nil hsegments htrim with ⟨hnone, htop⟩ | ⟨hsome, c, hc, hroot⟩
    · rw [hnone, if_pos htop]
      rfl
    · rw [hsome, hc, if_neg (by simp [hroot])]
      rfl
  · obtain ⟨body, last, c, hconcat, hc⟩ := exists_trimEnd_concat htrim
    obtain ⟨q, hsome, hcomponents, hq⟩ := parent?_of_trimEnd_concat hsegments hconcat hc
    have htop : ¬ (p.components = [] ∨ p.components = [.root]) := by
      rw [hcomponents]
      cases hlist : q.components with
      | nil => exact absurd hlist hq
      | cons d more => simp
    rw [hsome, if_neg htop, hcomponents, List.dropLast_concat]
    rfl

theorem parent?_congr {p q : Path} (h : p.components = q.components) :
    p.parent?.map components = q.parent?.map components := by
  rw [components_parent?, components_parent?, h]

end Coverage.Path
