import Coverage.Proofs.Path.Parent
import Coverage.Proofs.Path.Place
import Coverage.Proofs.Text.Bytes

/-!
Paths shown relative to a base. Whether the path lies below the base or elsewhere, what is shown
goes up from the base to where the two part and then down. Where the names on the way down are
text they are shown as they are, so that behind the base what is shown leads to where the path
leads.
-/
namespace Coverage.Path

open Component (IsInner)
open FileTree (descend foldl_descend_names)
open Text (IsText)

/-- Two lists of components are the same up to a point, and from there they go apart. -/
structure PartAt (path base common down above : List Component) : Prop where
  path : path = common ++ down
  base : base = common ++ above
  apart : ∀ c ∈ down.head?, c ∉ above.head?

section Pieces

theorem filterMap_dropWhile_isSkipped (segments : List Bytes) :
    (segments.dropWhile isSkipped).filterMap Component.ofSegment? =
      segments.filterMap Component.ofSegment? := by
  induction segments with
  | nil => rfl
  | cons segment rest ih =>
      by_cases hskipped : isSkipped segment = true
      · rw [List.dropWhile_cons_of_pos hskipped, ih,
          List.filterMap_cons_none (ofSegment?_of_isSkipped hskipped)]
      · rw [List.dropWhile_cons_of_neg hskipped]

theorem filterMap_dropSegments (count : Nat) (segments : List Bytes) :
    (dropSegments count segments).filterMap Component.ofSegment? =
      (segments.filterMap Component.ofSegment?).drop count := by
  induction segments generalizing count with
  | nil => cases count <;> simp [dropSegments]
  | cons segment rest ih =>
      cases count with
      | zero => simp [dropSegments]
      | succ count =>
          rw [dropSegments]
          cases hskipped : isSkipped segment with
          | true =>
              rw [if_pos rfl, ih, List.filterMap_cons_none (ofSegment?_of_isSkipped hskipped)]
          | false =>
              obtain ⟨c, hc⟩ := exists_of_not_isSkipped hskipped
              rw [if_neg Bool.false_ne_true, ih, List.filterMap_cons_some hc, List.drop_succ_cons]

theorem dropSegments_subset (count : Nat) (segments : List Bytes) :
    dropSegments count segments ⊆ segments := by
  induction segments generalizing count with
  | nil => cases count <;> simp [dropSegments]
  | cons segment rest ih =>
      cases count with
      | zero => simp [dropSegments]
      | succ count =>
          rw [dropSegments]
          split
          · exact fun s hs => List.mem_cons_of_mem segment (ih _ hs)
          · exact fun s hs => List.mem_cons_of_mem segment (ih _ hs)

/-- Pieces of which the first makes a component are cut apart again. -/
theorem components_intercalate {segments : List Bytes} (hslash : ∀ s ∈ segments, slash ∉ s)
    (hhead : ∀ s ∈ segments.head?, isSkipped s = false) :
    components ⟨[slash].intercalate segments⟩ = segments.filterMap Component.ofSegment? := by
  cases segments with
  | nil => rfl
  | cons first rest =>
      obtain ⟨c, hc⟩ := exists_of_not_isSkipped (hhead first rfl)
      have hfirst : front first rest = [c] := by
        have hempty : first ≠ [] := fun h => by simp [h, Component.ofSegment?] at hc
        have hdot : first ≠ [dot] := fun h => by simp [h, Component.ofSegment?] at hc
        rw [front, if_neg hempty, if_neg hdot, hc]
        rfl
      rw [components_of_segments (segments_intercalate hslash), hfirst, List.filterMap_cons_some hc]
      rfl

/-- The pieces that are left behind the first components of an absolute path. -/
theorem exists_dropComponents {p : Path} (h : p.isAbsolute = true) {count : Nat}
    (hcount : 0 < count) : ∃ segments : List Bytes,
      p.dropComponents count = ⟨[slash].intercalate segments⟩ ∧ (∀ s ∈ segments, slash ∉ s) ∧
        (∀ s ∈ segments.head?, isSkipped s = false) ∧
        segments.filterMap Component.ofSegment? = p.components.drop count := by
  obtain ⟨count, rfl⟩ := Nat.exists_eq_add_of_lt hcount
  rw [Nat.zero_add]
  obtain ⟨first, rest, hsegments⟩ := p.exists_segments
  have hcomponents : p.components = .root :: rest.filterMap Component.ofSegment? := by
    have hroot := components_of_isAbsolute h
    rw [components_of_segments hsegments] at hroot ⊢
    by_cases hfirst : first = []
    · cases rest with
      | nil => simp [front, hfirst] at hroot
      | cons next rest => simp [front, hfirst]
    · obtain ⟨c, hfront, hc⟩ := front_of_ne hfirst rest
      rw [hfront] at hroot
      exact absurd (List.cons.inj hroot).1 hc
  refine ⟨_, rfl, fun s hs => ?_, fun s hs => ?_, ?_⟩
  · have hkept := (List.dropWhile_subset _) ((trimEnd_isPrefix _).subset hs)
    exact not_mem_of_mem_segments (List.mem_of_mem_tail (dropSegments_subset _ _ hkept))
  · have hfirst := List.head?_dropWhile_not isSkipped (dropSegments count p.segments.tail)
    obtain ⟨after, hafter⟩ :=
      trimEnd_isPrefix ((dropSegments count p.segments.tail).dropWhile isSkipped)
    rw [← hafter, List.head?_append, Option.mem_def.1 hs] at hfirst
    simpa using hfirst
  · rw [filterMap_trimEnd, filterMap_dropWhile_isSkipped, filterMap_dropSegments, hsegments,
      hcomponents]
    rfl

theorem filterMap_map_bytes {parts : List Component} (h : ∀ c ∈ parts, c.IsInner) :
    (parts.map Component.bytes).filterMap Component.ofSegment? = parts := by
  induction parts with
  | nil => rfl
  | cons c rest ih =>
      rw [List.map_cons, List.filterMap_cons_some (h c List.mem_cons_self).ofSegment?,
        ih fun d hd => h d (List.mem_cons_of_mem c hd)]

theorem bytes_of_ofSegment? {segment : Bytes} {c : Component}
    (h : Component.ofSegment? segment = some c) : c.bytes = segment := by
  rw [Component.ofSegment?] at h
  split at h
  · cases h
  · split at h
    · rename_i hup
      cases h
      exact hup.symm
    · cases h
      rfl

/-- Pieces are text if the components are that they make. -/
theorem isText_of_filterMap {segments : List Bytes}
    (h : ∀ c ∈ segments.filterMap Component.ofSegment?, IsText c.bytes) :
    ∀ s ∈ segments, IsText s := by
  intro s hs
  cases hc : Component.ofSegment? s with
  | none =>
      rw [Component.ofSegment?] at hc
      split at hc
      · rename_i hplain
        rcases hplain with rfl | rfl
        · exact ⟨"", rfl⟩
        · exact ⟨".", by decide +kernel⟩
      · split at hc <;> cases hc
  | some c =>
      rw [← bytes_of_ofSegment? hc]
      exact h c (List.mem_filterMap.2 ⟨s, hs, hc⟩)

theorem isText_intercalate {segments : List Bytes} (h : ∀ s ∈ segments, IsText s) :
    IsText ([slash].intercalate segments) := by
  induction segments with
  | nil => exact ⟨"", rfl⟩
  | cons first rest ih =>
      cases rest with
      | nil =>
          rw [List.intercalate_singleton]
          exact h first List.mem_cons_self
      | cons next rest =>
          obtain ⟨text, rfl⟩ := h first List.mem_cons_self
          obtain ⟨more, hmore⟩ := ih fun s hs => h s (List.mem_cons_of_mem _ hs)
          have hslash : Text.bytes "/" = [slash] := by decide +kernel
          exact ⟨text ++ "/" ++ more, by
            rw [Text.bytes_append, Text.bytes_append, hmore, hslash, List.intercalate_cons_cons]⟩

end Pieces

theorem exists_partAt (path base : List Component) : ∃ common down above,
    PartAt path base common down above ∧ common.length = commonLength path base := by
  induction path generalizing base with
  | nil => exact ⟨[], [], base, ⟨rfl, rfl, by simp⟩, by simp [commonLength]⟩
  | cons c path ih =>
      cases base with
      | nil => exact ⟨[], c :: path, [], ⟨rfl, rfl, by simp⟩, by simp [commonLength]⟩
      | cons d base =>
          by_cases hsame : c = d
          · subst hsame
            obtain ⟨common, down, above, hpart, hlength⟩ := ih base
            refine ⟨c :: common, down, above, ⟨?_, ?_, hpart.apart⟩, ?_⟩
            · rw [hpart.path, List.cons_append]
            · rw [hpart.base, List.cons_append]
            · rw [List.length_cons, hlength, commonLength, if_pos rfl]
          · refine ⟨[], c :: path, d :: base, ⟨rfl, rfl, ?_⟩, by simp [commonLength, hsame]⟩
            simpa using Ne.symm hsame

theorem isInner_climbs {down : List Component} (h : ∀ c ∈ down, c.IsInner) (count : Nat) :
    ∀ c ∈ List.replicate count .up ++ down, c.IsInner := by
  intro c hc
  rcases List.mem_append.1 hc with hup | hdown
  · rw [List.eq_of_mem_replicate hup]
    exact .up
  · exact h c hdown

section Shown

variable {p base : Path} (hp : p.isAbsolute = true) (hbase : base.isAbsolute = true)
include hp hbase

/-- Two absolute paths have the root in common. -/
theorem PartAt.common_ne_nil {common down above : List Component}
    (h : PartAt p.components base.components common down above) : common ≠ [] := by
  intro hnil
  have hpath := h.path
  have hhere := h.base
  rw [hnil, List.nil_append] at hpath hhere
  have hapart := h.apart .root
  rw [← hpath, ← hhere, components_of_isAbsolute hp, components_of_isAbsolute hbase] at hapart
  exact hapart rfl rfl

/-- What is shown goes up from the base to where the paths part, and from there down. -/
theorem exists_displayed : ∃ common down above segments,
    PartAt p.components base.components common down above ∧
      p.displayed (some base) = shown ⟨[slash].intercalate segments⟩ ∧
      segments.filterMap Component.ofSegment? = List.replicate above.length .up ++ down ∧
      components ⟨[slash].intercalate segments⟩ = List.replicate above.length .up ++ down := by
  have hpos : 0 < base.components.length := by
    rw [components_of_isAbsolute hbase]
    exact Nat.succ_pos _
  by_cases hbelow : p.startsWith base = true
  · obtain ⟨down, hdown⟩ := List.isPrefixOf_iff_prefix.1 hbelow
    obtain ⟨segments, hrest, hslash, hhead, hparts⟩ := exists_dropComponents hp hpos
    rw [← hdown, List.drop_left] at hparts
    refine ⟨base.components, down, [], segments, ⟨hdown.symm, (List.append_nil _).symm, by simp⟩,
      ?_, hparts, ?_⟩
    · simp [displayed, stripBase?, hbelow, hrest]
    · rw [components_intercalate hslash hhead, hparts]
      rfl
  · obtain ⟨common, down, above, hpart, hlength⟩ := exists_partAt p.components base.components
    have hcommon := hpart.common_ne_nil hp hbase
    have hups : base.components.length - common.length = above.length := by
      rw [hpart.base, List.length_append, Nat.add_sub_cancel_left]
    have hdown : p.components.drop common.length = down := by
      rw [hpart.path, List.drop_left]
    have hinner := isInner_climbs (isInner_of_isAbsolute hp hcommon hpart.path) above.length
    have hparts := filterMap_map_bytes hinner
    refine ⟨common, down, above, _, hpart, ?_, hparts, ?_⟩
    · simp [displayed, stripBase?, hbelow, hp, hbase, climb, ← hlength, hups, hdown, hcommon]
    · rw [components_intercalate, hparts]
      · intro s hs
        obtain ⟨c, hc, rfl⟩ := List.mem_map.1 hs
        exact (hinner c hc).not_mem
      · intro s hs
        obtain ⟨c, hc, rfl⟩ := List.mem_map.1 (List.mem_of_mem_head? hs)
        rw [isSkipped, (hinner c hc).ofSegment?]
        rfl

end Shown

/-- What is shown for a path goes up from the base just as often as the base has components beyond
the common ones, and then down. If the names on the way down are text, it leads from the base to
the place that the path denotes. -/
structure LeadsBack (base p : Path) (common down above : List Component) : Prop where
  parts : PartAt p.components base.components common down above
  climbs : ∃ way : Path, p.displayed (some base) = way.shown ∧
    way.components = List.replicate above.length .up ++ down
  place : (∀ c ∈ down, IsText c.bytes) →
    components (p.displayed (some base)) = List.replicate above.length .up ++ down ∧
      (base.join (p.displayed (some base))).place = p.place

/-- Where the path has parted from the base its names are text. -/
def IsTextBeyond (base p : Path) : Prop := ∀ common down above,
  PartAt p.components base.components common down above → ∀ c ∈ down, IsText c.bytes

/-- Up from the base and down again a path leads to the place of the path that was shown. -/
theorem place_join_of_partAt {base p way : Path} (hbase : base.isAbsolute = true)
    (hup : .up ∉ base.components) (hp : p.isAbsolute = true) {common down above : List Component}
    (hpart : PartAt p.components base.components common down above)
    (hway : way.components = List.replicate above.length .up ++ down) :
    (base.join way).place = p.place := by
  have hcommon := hpart.common_ne_nil hp hbase
  have hinner : ∀ c ∈ way.components, c.IsInner := by
    rw [hway]
    exact isInner_climbs (isInner_of_isAbsolute hp hcommon hpart.path) above.length
  have hrelative : way.isAbsolute = false := by
    rw [Bool.eq_false_iff, isAbsolute, ne_eq, beq_iff_eq]
    intro hroot
    exact (hinner .root (List.mem_of_mem_head? hroot)).ne.1 rfl
  have hkept : way.inner = way.components :=
    List.filter_eq_self.2 fun c hc => by simpa using (hinner c hc).ne
  have hjoin : (base.join way).components =
      common ++ above ++ List.replicate above.length .up ++ down := by
    rw [components_join_of_ne (bytes_ne_of_isAbsolute hbase) hrelative, hkept, hway, hpart.base,
      List.append_assoc, List.append_assoc, List.append_assoc]
  -- the names that only the base has are entered and left again
  obtain ⟨names, hnames⟩ := exists_names (isInner_of_isAbsolute hbase hcommon hpart.base)
    fun hmem => hup (hpart.base ▸ List.mem_append_right common hmem)
  rw [place, place, hjoin, hpart.path, hnames, List.length_map, List.foldl_append,
    List.foldl_append, List.foldl_append, foldl_descend_names, foldl_descend_up, List.foldl_append]

theorem exists_leadsBack {base p : Path} (hbase : base.isAbsolute = true)
    (hup : .up ∉ base.components) (hp : p.isAbsolute = true) :
    ∃ common down above, LeadsBack base p common down above := by
  obtain ⟨common, down, above, segments, hpart, hshown, hparts, hway⟩ := exists_displayed hp hbase
  refine ⟨common, down, above, hpart, ⟨_, hshown, hway⟩, fun htext => ?_⟩
  have hpieces : ∀ s ∈ segments, IsText s := by
    refine isText_of_filterMap fun c hc => ?_
    rw [hparts] at hc
    rcases List.mem_append.1 hc with hclimb | hdown
    · rw [List.eq_of_mem_replicate hclimb]
      exact ⟨"..", by decide +kernel⟩
    · exact htext c hdown
  obtain ⟨text, hbytes⟩ := isText_intercalate hpieces
  have hexact : ofText (p.displayed (some base)) = ⟨[slash].intercalate segments⟩ := by
    rw [hshown, shown, ← hbytes, Text.readable_bytes, ofText]
  rw [hexact]
  exact ⟨hway, place_join_of_partAt hbase hup hp hpart hway⟩

theorem place_displayed {base p : Path} (hbase : base.isAbsolute = true)
    (hup : .up ∉ base.components) (hp : p.isAbsolute = true) (htext : IsTextBeyond base p) :
    (base.join (p.displayed (some base))).place = p.place := by
  obtain ⟨common, down, above, hleads⟩ := exists_leadsBack hbase hup hp
  exact (hleads.place (htext common down above hleads.parts)).2

/-- What is shown relative to a base leads back to the path, with just as many climbs as the base
has components beyond the common ones, and paths without climbs are told apart by it. -/
theorem displayed_leadsBack {base : Path} (hbase : base.isAbsolute = true)
    (hup : .up ∉ base.components) :
    (∀ p : Path, p.isAbsolute = true → ∃ common down above, LeadsBack base p common down above) ∧
      ∀ p q : Path, p.isAbsolute = true → q.isAbsolute = true → IsTextBeyond base p →
        IsTextBeyond base q → .up ∉ p.components → .up ∉ q.components →
          p.displayed (some base) = q.displayed (some base) → p.components = q.components := by
  refine ⟨fun p hp => exists_leadsBack hbase hup hp, ?_⟩
  intro p q hp hq hptext hqtext hpup hqup hshown
  have hplace : p.place = q.place := by
    rw [← place_displayed hbase hup hp hptext, ← place_displayed hbase hup hq hqtext, hshown]
  rw [components_of_not_climbing hp hpup, components_of_not_climbing hq hqup, hplace]

theorem isTextBeyond_of_forall {base p : Path} (h : ∀ c ∈ p.components, IsText c.bytes) :
    IsTextBeyond base p := fun _ _ _ hpart c hc =>
  h c (hpart.path ▸ List.mem_append_right _ hc)

def sources : Path := "/project/src"

/-- Files beside the base, one behind a climb of its own and one in two spellings. -/
theorem displayed_leadsBack_beside :
    sources.isAbsolute = true ∧ .up ∉ sources.components ∧
      displayed "/project/lib/../a.js" (some sources) = "../lib/../a.js" ∧
      (∃ common down above, LeadsBack sources "/project/lib/../a.js" common down above) ∧
      components "/project//lib/a.js" = components "/project/lib/./a.js/" := by
  have hbase : sources.isAbsolute = true := by decide +kernel
  have hup : .up ∉ sources.components := by decide +kernel
  obtain ⟨hleads, hinjective⟩ := displayed_leadsBack hbase hup
  refine ⟨hbase, hup, by decide +kernel, hleads _ (by decide +kernel), ?_⟩
  exact hinjective _ _ (by decide +kernel) (by decide +kernel)
    (isTextBeyond_of_forall (by decide +kernel)) (isTextBeyond_of_forall (by decide +kernel))
    (by decide +kernel) (by decide +kernel) (by decide +kernel)

/-- The file `a.js` in a directory whose name is one byte. -/
def within (name : UInt8) : Path := ⟨Text.bytes "/project/src/" ++ name :: Text.bytes "/a.js"⟩

/-- Names that are no text are shown alike, so that two files go by one name that leads to neither;
and a relative path is shown as the file of its name below the base. -/
theorem displayed_alike :
    ((within 0xff).displayed (some sources) = (within 0xfe).displayed (some sources) ∧
      (within 0xff).components ≠ (within 0xfe).components ∧
      (sources.join ((within 0xff).displayed (some sources))).place ≠ (within 0xff).place) ∧
    (displayed "a.js" (some sources) = displayed "/project/src/a.js" (some sources) ∧
      components "a.js" ≠ components "/project/src/a.js") := by
  decide +kernel

end Coverage.Path
