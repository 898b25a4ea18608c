import Coverage.Path
import Coverage.Proofs.Text.Bytes
import Coverage.Proofs.Text.Pieces

/-!
Paths by their components. Bytes are cut at separators, so a path put together from
pieces has the components of its pieces: joining puts the components of the right
side behind those of the left, and the parent lacks the last one. Nothing of a path
but its components decides these, so paths that name one place stay together.
-/
namespace Coverage

namespace Component

/-- A name stands between separators and means no other place. -/
def IsName (bytes : Bytes) : Prop :=
  slash ∉ bytes ∧ bytes ≠ [] ∧ bytes ≠ [dot] ∧ bytes ≠ [dot, dot]

instance (bytes : Bytes) : Decidable (IsName bytes) :=
  inferInstanceAs (Decidable (_ ∧ _ ∧ _ ∧ _))

/-- A component that can stand anywhere. -/
inductive IsInner : Component → Prop where
  | up : IsInner up
  | name {bytes : Bytes} (h : IsName bytes) : IsInner (name bytes)

theorem IsName.ofSegment? {bytes : Bytes} (h : IsName bytes) :
    Component.ofSegment? bytes = some (name bytes) := by
  simp [Component.ofSegment?, h.2.1, h.2.2.1, h.2.2.2]

theorem isInner_of_ofSegment? {segment : Bytes} {c : Component} (hslash : slash ∉ segment)
    (h : ofSegment? segment = some c) : c.IsInner := by
  rw [ofSegment?] at h
  split at h
  · cases h
  · rename_i hplain
    rw [not_or] at hplain
    split at h
    · cases h
      exact .up
    · rename_i hup
      cases h
      exact .name ⟨hslash, hplain.1, hplain.2, hup⟩

theorem IsInner.ofSegment? {c : Component} (h : c.IsInner) :
    Component.ofSegment? c.bytes = some c := by
  cases h with
  | up => rfl
  | name h => exact h.ofSegment?

theorem IsInner.not_mem {c : Component} (h : c.IsInner) : slash ∉ c.bytes := by
  cases h with
  | up => decide
  | name h => exact h.1

theorem IsInner.ne {c : Component} (h : c.IsInner) : c ≠ root ∧ c ≠ current := by
  cases h <;> simp

instance : Std.LawfulEqOrd Component where
  eq_of_compare {a b} h := by
    obtain ⟨hrank, hbytes⟩ : compareOn rank a b = .eq ∧ compareOn bytes a b = .eq := by
      simpa [compare, compareLex, Ordering.then_eq_eq] using h
    have hrank' : a.rank = b.rank := Std.LawfulEqOrd.compare_eq_iff_eq.1 hrank
    have hbytes' : a.bytes = b.bytes := Std.LawfulEqOrd.compare_eq_iff_eq.1 hbytes
    cases a <;> cases b <;> simp_all [rank, bytes]

end Component

open Component (IsName IsInner)

namespace Path

/-- The components that can stand anywhere. -/
abbrev inner (p : Path) : List Component := p.components.filter fun c => c != .root && c != .current

theorem exists_segments (p : Path) : ∃ first rest, p.segments = first :: rest :=
  List.exists_cons_of_ne_nil (Text.pieces_ne_nil slash p.bytes)

theorem segments_append (a b : Bytes) :
    segments ⟨a ++ slash :: b⟩ = segments ⟨a⟩ ++ segments ⟨b⟩ :=
  Text.pieces_append slash a b

theorem segments_of_not_mem {b : Bytes} (h : slash ∉ b) : segments ⟨b⟩ = [b] :=
  Text.pieces_of_not_mem h

theorem components_of_segments {p : Path} {first : Bytes} {rest : List Bytes}
    (h : p.segments = first :: rest) :
    p.components = front first rest ++ rest.filterMap Component.ofSegment? := by
  simp only [components, h]

theorem not_mem_of_mem_segments {p : Path} {segment : Bytes} (h : segment ∈ p.segments) :
    slash ∉ segment :=
  Text.not_mem_of_mem_pieces h

theorem isInner_of_mem_filterMap {segments : List Bytes} {c : Component}
    (hslash : ∀ s ∈ segments, slash ∉ s) (h : c ∈ segments.filterMap Component.ofSegment?) :
    c.IsInner := by
  obtain ⟨segment, hsegment, hc⟩ := List.mem_filterMap.1 h
  exact Component.isInner_of_ofSegment? (hslash segment hsegment) hc

/-- Away from the front a path's components are those of its pieces. -/
@[simp]
theorem filterMap_segments (p : Path) :
    p.segments.filterMap Component.ofSegment? = p.inner := by
  obtain ⟨first, rest, hsegments⟩ := p.exists_segments
  have hrest : (rest.filterMap Component.ofSegment?).filter
      (fun c => c != .root && c != .current) = rest.filterMap Component.ofSegment? := by
    refine List.filter_eq_self.2 fun c hc => ?_
    have hslash : ∀ s ∈ rest, slash ∉ s := fun s hs =>
      not_mem_of_mem_segments (hsegments ▸ List.mem_cons_of_mem first hs)
    simpa using (isInner_of_mem_filterMap hslash hc).ne
  rw [inner, components_of_segments hsegments, hsegments, List.filter_append, hrest,
    List.filterMap_cons]
  unfold front
  by_cases hempty : first = []
  · subst hempty
    cases rest <;> rfl
  · by_cases hdot : first = [dot]
    · subst hdot
      rfl
    · by_cases hup : first = [dot, dot]
      · subst hup
        rfl
      · simp [hempty, hdot, hup, Component.ofSegment?]

theorem isInner_of_mem_inner {p : Path} {c : Component} (h : c ∈ p.inner) : c.IsInner := by
  rw [← filterMap_segments] at h
  exact isInner_of_mem_filterMap (fun _ hs => not_mem_of_mem_segments hs) h

@[simp]
theorem components_empty : components ⟨[]⟩ = [] := rfl

@[simp]
theorem inner_empty : inner ⟨[]⟩ = [] := rfl

theorem segments_ne_of_head {b : UInt8} {more first : Bytes} {rest : List Bytes} (hb : b ≠ slash)
    (h : segments ⟨b :: more⟩ = first :: rest) : first ≠ [] := by
  obtain ⟨piece, others, hpieces⟩ := List.exists_cons_of_ne_nil (Text.pieces_ne_nil slash more)
  simp only [segments, Text.pieces, if_neg hb, hpieces] at h
  rw [← (List.cons.inj h).1]
  exact List.cons_ne_nil b piece

/-- A path is empty, or a separator leads it, or its first piece is not empty. -/
theorem front_cases (p : Path) :
    p = ⟨[]⟩ ∨ (∃ b, p = ⟨slash :: b⟩) ∨
      (p.bytes.head? ≠ some slash ∧ ∃ first rest, p.segments = first :: rest ∧ first ≠ []) := by
  obtain ⟨bytes⟩ := p
  cases bytes with
  | nil => exact .inl rfl
  | cons b more =>
      by_cases hb : b = slash
      · exact .inr (.inl ⟨more, by rw [hb]⟩)
      · obtain ⟨first, rest, hsegments⟩ := exists_segments ⟨b :: more⟩
        refine .inr (.inr ⟨?_, first, rest, hsegments, segments_ne_of_head hb hsegments⟩)
        simpa using hb

@[simp]
theorem components_slash_cons (b : Bytes) : components ⟨slash :: b⟩ = .root :: inner ⟨b⟩ := by
  obtain ⟨first, rest, hrest⟩ := exists_segments ⟨b⟩
  have hsegments : segments ⟨slash :: b⟩ = [] :: segments ⟨b⟩ := segments_append [] b
  rw [components_of_segments hsegments, filterMap_segments, hrest]
  rfl

theorem front_of_ne {first : Bytes} (h : first ≠ []) (rest : List Bytes) :
    ∃ c, front first rest = [c] ∧ c ≠ .root := by
  by_cases hdot : first = [dot]
  · exact ⟨.current, by simp [front, hdot], by simp⟩
  · by_cases hup : first = [dot, dot]
    · exact ⟨.up, by simp [front, hup, Component.ofSegment?], by simp⟩
    · exact ⟨.name first, by simp [front, h, hdot, hup, Component.ofSegment?], by simp⟩

theorem bytes_eq_nil_iff (p : Path) : p.bytes = [] ↔ p.components = [] := by
  rcases p.front_cases with rfl | ⟨b, rfl⟩ | ⟨-, first, rest, hsegments, hfirst⟩
  · exact ⟨fun _ => rfl, fun _ => rfl⟩
  · simp
  · obtain ⟨c, hfront, -⟩ := front_of_ne hfirst rest
    have hbytes : p.bytes ≠ [] := by
      intro h
      have hempty : p.segments = [[]] := by rw [segments, h]; rfl
      rw [hempty] at hsegments
      exact hfirst (List.cons.inj hsegments).1.symm
    simp [components_of_segments hsegments, hfront, hbytes]

theorem isAbsolute_iff (p : Path) : p.isAbsolute = true ↔ p.bytes.head? = some slash := by
  rcases p.front_cases with rfl | ⟨b, rfl⟩ | ⟨hhead, first, rest, hsegments, hfirst⟩
  · simp [isAbsolute]
  · simp [isAbsolute]
  · obtain ⟨c, hfront, hc⟩ := front_of_ne hfirst rest
    simp [isAbsolute, components_of_segments hsegments, hfront, hhead, hc]

theorem front_append {first : Bytes} {rest : List Bytes} (h : first ≠ [] ∨ rest ≠ [])
    (more : List Bytes) : front first (rest ++ more) = front first rest := by
  unfold front
  split
  · rename_i hempty
    have hrest : rest ≠ [] := h.resolve_left fun hne => hne hempty
    cases rest with
    | nil => exact absurd rfl hrest
    | cons segment rest => rfl
  · rfl

/-- What stands behind a separator follows what stands before it. -/
theorem components_append {a : Bytes} (ha : a ≠ []) (b : Bytes) :
    components ⟨a ++ slash :: b⟩ = components ⟨a⟩ ++ inner ⟨b⟩ := by
  obtain ⟨first, rest, hsegments⟩ := exists_segments ⟨a⟩
  have hwhole : segments ⟨a ++ slash :: b⟩ = first :: (rest ++ segments ⟨b⟩) := by
    rw [segments_append, hsegments, List.cons_append]
  have hfront : first ≠ [] ∨ rest ≠ [] := by
    rw [← Classical.not_and_iff_not_or_not]
    rintro ⟨rfl, rfl⟩
    have hempty : components ⟨a⟩ = [] := by rw [components_of_segments hsegments]; rfl
    exact ha ((bytes_eq_nil_iff ⟨a⟩).2 hempty)
  rw [components_of_segments hwhole, components_of_segments hsegments, front_append hfront,
    List.filterMap_append, filterMap_segments, List.append_assoc]

theorem join_of_isAbsolute (base : Path) {p : Path} (h : p.isAbsolute = true) :
    base.join p = p := by
  rw [join, if_pos ((isAbsolute_iff p).1 h)]

/-- A relative path is put behind a separator, unless there is one already. -/
theorem join_cases {base p : Path} (hbase : base.bytes ≠ []) (hp : p.isAbsolute = false) :
    (∃ front, base = ⟨front ++ [slash]⟩ ∧ base.join p = ⟨front ++ slash :: p.bytes⟩) ∨
      base.bytes.getLast? ≠ some slash ∧ base.join p = ⟨base.bytes ++ slash :: p.bytes⟩ := by
  have hhead : ¬ p.bytes.head? = some slash := by
    rw [← isAbsolute_iff, hp]
    exact Bool.false_ne_true
  rw [join, if_neg hhead]
  by_cases hends : base.bytes.getLast? = some slash
  · obtain ⟨front, hfront⟩ := List.getLast?_eq_some_iff.1 hends
    refine .inl ⟨front, congrArg Path.mk hfront, ?_⟩
    rw [if_pos (.inr hends), hfront, List.append_assoc]
    rfl
  · exact .inr ⟨hends, if_neg (not_or.2 ⟨hbase, hends⟩)⟩

theorem segments_trailing (front : Bytes) :
    segments ⟨front ++ [slash]⟩ = segments ⟨front⟩ ++ [[]] :=
  segments_append front []

/-- A separator at the end of a path adds nothing to it. -/
theorem components_trailing {front : Bytes} (h : front ≠ []) :
    components ⟨front ++ [slash]⟩ = components ⟨front⟩ := by
  rw [components_append h [], inner_empty, List.append_nil]

theorem components_join_of_ne {base p : Path} (hbase : base.bytes ≠ [])
    (hp : p.isAbsolute = false) : (base.join p).components = base.components ++ p.inner := by
  rcases join_cases hbase hp with ⟨front, rfl, hjoin⟩ | ⟨-, hjoin⟩
  · rw [hjoin]
    by_cases hfront : front = []
    · subst hfront
      exact components_slash_cons p.bytes
    · rw [components_append hfront, components_trailing hfront]
  · rw [hjoin]
    exact components_append hbase p.bytes

theorem components_join (base p : Path) :
    (base.join p).components =
      if p.isAbsolute = true ∨ base.components = [] then p.components
      else base.components ++ p.inner := by
  by_cases hp : p.isAbsolute = true
  · rw [join_of_isAbsolute base hp, if_pos (.inl hp)]
  · rw [Bool.not_eq_true] at hp
    by_cases hbase : base.components = []
    · have hbytes := (bytes_eq_nil_iff base).2 hbase
      have hhead : ¬ p.bytes.head? = some slash := by
        rw [← isAbsolute_iff, hp]
        exact Bool.false_ne_true
      have hjoin : base.join p = p := by
        rw [join, if_neg hhead, hbytes, if_pos (.inl rfl), List.nil_append]
      rw [hjoin, if_pos (.inr hbase)]
    · have hbytes : base.bytes ≠ [] := fun h => hbase ((bytes_eq_nil_iff base).1 h)
      rw [components_join_of_ne hbytes hp, if_neg (by simp [hp, hbase])]

/-- Both sides stay as they are written. -/
theorem length_add_le_length_join (base : Path) {p : Path} (hp : p.isAbsolute = false) :
    base.bytes.length + p.bytes.length ≤ (base.join p).bytes.length := by
  by_cases hbase : base.bytes = []
  · have hhead : ¬ p.bytes.head? = some slash := by
      rw [← isAbsolute_iff, hp]
      exact Bool.false_ne_true
    rw [join, if_neg hhead, if_pos (.inl hbase)]
    exact Nat.le_of_eq List.length_append.symm
  · rcases join_cases hbase hp with ⟨front, rfl, hjoin⟩ | ⟨-, hjoin⟩ <;> simp [hjoin]
    omega

theorem isAbsolute_join {base : Path} (hbase : base.isAbsolute = true) (p : Path) :
    (base.join p).isAbsolute = true := by
  have hhead : base.components.head? = some .root := by simpa [isAbsolute] using hbase
  rw [isAbsolute, components_join]
  split
  · rename_i hcases
    rcases hcases with hp | hempty
    · exact hp
    · simp [hempty] at hhead
  · rw [List.head?_append, hhead]
    rfl

theorem components_of_isInner {c : Component} (h : c.IsInner) : components ⟨c.bytes⟩ = [c] := by
  have hsegments : segments ⟨c.bytes⟩ = [c.bytes] := segments_of_not_mem h.not_mem
  cases h with
  | up => rfl
  | name h =>
      rw [components_of_segments hsegments]
      simp [front, h.2.1, h.2.2.1, h.ofSegment?, Component.bytes]

theorem inner_of_isInner {c : Component} (h : c.IsInner) : inner ⟨c.bytes⟩ = [c] := by
  rw [inner, components_of_isInner h]
  simpa using h.ne

theorem isAbsolute_of_isInner {c : Component} (h : c.IsInner) :
    isAbsolute ⟨c.bytes⟩ = false := by
  simpa [isAbsolute, components_of_isInner h] using h.ne.1

theorem components_join_inner (p : Path) {c : Component} (h : c.IsInner) :
    (p.join ⟨c.bytes⟩).components = p.components ++ [c] := by
  rw [components_join, isAbsolute_of_isInner h]
  split
  · rename_i hempty
    rw [hempty.resolve_left Bool.false_ne_true, components_of_isInner h]
    rfl
  · rw [inner_of_isInner h]

theorem components_join_name (p : Path) {name : Bytes} (h : IsName name) :
    (p.join ⟨name⟩).components = p.components ++ [.name name] := by
  have hjoin := p.components_join_inner (IsInner.name h)
  exact hjoin

theorem text?_eq_some_iff (p : Path) (text : String) : p.text? = some text ↔ ofText text = p := by
  rw [text?, Text.ofBytes?_eq_some_iff, ofText]
  exact ⟨congrArg Path.mk, congrArg Path.bytes⟩

@[simp]
theorem compare_eq_iff (p q : Path) : compare p q = .eq ↔ p.components = q.components :=
  Std.LawfulEqOrd.compare_eq_iff_eq (a := p.components) (b := q.components)

theorem isAbsolute_congr {p q : Path} (h : p.components = q.components) :
    p.isAbsolute = q.isAbsolute := by
  rw [isAbsolute, isAbsolute, h]

theorem inner_congr {p q : Path} (h : p.components = q.components) : p.inner = q.inner := by
  rw [inner, inner, h]

theorem join_congr {base base' p q : Path} (hbase : base.components = base'.components)
    (h : p.components = q.components) : (base.join p).components = (base'.join q).components := by
  rw [components_join, components_join, isAbsolute_congr h, inner_congr h, hbase, h]

end Path

end Coverage
