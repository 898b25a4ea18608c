import Coverage.LineMap
import Coverage.Proofs.Fragment
import Coverage.Proofs.OrderedMap

/-!
The line map, line by line. The pass goes over sorted locations, so what comes later on the
same line starts no earlier, and ends no earlier if it starts in the same column. The first
range that is taken from a column is therefore the narrowest, the ranges of a line ascend,
and nothing shows how ties were sorted. Neither the order of the nodes nor their repetition
matters, and fewer missing nodes leave fewer lines, fewer start columns and later ends.
-/
namespace Coverage

/-- The columns of the location on its first line. -/
def Location.fragment (l : Location) : Fragment := ⟨l.startLine, l.startColumn, l.endColumn⟩

/-- On one line the first fragment starts no later and, from the same column, ends no
later. -/
def Fragment.Precedes (f g : Fragment) : Prop :=
  f.line = g.line → f.start ≤ g.start ∧ (f.start = g.start → f.stop ≤ g.stop)

namespace Location

instance : Std.TransCmp order := inferInstanceAs (Std.TransCmp (compareLex _ (compareLex _ _)))

theorem le_trans (l k j : Location) (hlk : le l k = true) (hkj : le k j = true) : le l j = true :=
  Std.TransCmp.isLE_trans hlk hkj

theorem le_total (l k : Location) : (le l k || le k l) = true := by
  have hswap : order k l = (order l k).swap := Std.OrientedCmp.eq_swap
  rw [le, le, hswap]
  cases order l k <;> rfl

theorem precedes_of_le {l k : Location} (h : le l k = true) : l.fragment.Precedes k.fragment := by
  intro hline
  change l.startLine = k.startLine at hline
  simp only [le, order, compareLex, compareOn, hline, Std.compare_self, Ordering.eq_then,
    Ordering.isLE_then_iff_or, Nat.compare_eq_lt, Nat.compare_eq_eq, Nat.isLE_compare] at h
  simp only [fragment]
  omega

end Location

namespace LineMap

/-- The entry of one line, counted from zero, by the fragments that were met. -/
structure EntrySpec (seenLines : List Nat) (lines : List String) (met : List Fragment)
    (line : Nat) (e : LineEntry) : Prop where
  mixed : e.mixed = seenLines.contains line
  source : e.source = (lines[line]?).getD ""
  ascending : e.missing.Pairwise fun r s => r.start < s.start
  starts : ∀ start stop, ⟨line, start, stop⟩ ∈ met → ∃ r ∈ e.missing, r.start = start
  attained : ∀ r ∈ e.missing, ⟨line, r.start, r.stop⟩ ∈ met
  least : ∀ r ∈ e.missing, ∀ stop, ⟨line, r.start, stop⟩ ∈ met → r.stop ≤ stop

section Entry

variable {seenLines : List Nat} {lines : List String} {met : List Fragment} {line : Nat}
  {e : LineEntry} {f : Fragment}

theorem entrySpec_unmarked (h : ∀ g ∈ met, g.line ≠ line) :
    EntrySpec seenLines lines met line (unmarked seenLines lines line) where
  mixed := rfl
  source := rfl
  ascending := .nil
  starts _ _ hmet := absurd rfl (h _ hmet)
  attained := nofun
  least := nofun

theorem EntrySpec.otherLine (h : EntrySpec seenLines lines met line e) (hf : f.line ≠ line) :
    EntrySpec seenLines lines (met ++ [f]) line e := by
  have hmet (start stop : Nat) : ⟨line, start, stop⟩ ∈ met ++ [f] ↔ ⟨line, start, stop⟩ ∈ met := by
    rw [List.mem_append, List.mem_singleton, or_iff_left]
    rintro rfl
    exact hf rfl
  refine ⟨h.mixed, h.source, h.ascending, ?_, ?_, ?_⟩
  · intro start stop hmem
    exact h.starts start stop ((hmet ..).1 hmem)
  · intro r hr
    exact (hmet ..).2 (h.attained r hr)
  · intro r hr stop hmem
    exact h.least r hr stop ((hmet ..).1 hmem)

/-- A fragment that starts where another one did is no narrower. -/
theorem EntrySpec.sameColumn (h : EntrySpec seenLines lines met line e) {stop : Nat}
    (hheld : ⟨line, f.start, stop⟩ ∈ met) (hlast : ∀ g ∈ met, g.Precedes f) (hf : f.line = line) :
    EntrySpec seenLines lines (met ++ [f]) line e := by
  refine ⟨h.mixed, h.source, h.ascending, ?_, ?_, ?_⟩
  · intro start stop' hmem
    rcases List.mem_append.1 hmem with hmem | hmem
    · exact h.starts start stop' hmem
    · obtain rfl := List.mem_singleton.1 hmem
      exact h.starts start stop hheld
  · intro r hr
    exact List.mem_append_left _ (h.attained r hr)
  · intro r hr stop' hmem
    rcases List.mem_append.1 hmem with hmem | hmem
    · exact h.least r hr stop' hmem
    · obtain rfl := List.mem_singleton.1 hmem
      exact (hlast _ (h.attained r hr) hf.symm).2 rfl

/-- The ranges that a line has start before the next column that is new. -/
theorem EntrySpec.newColumn (h : EntrySpec seenLines lines met line e)
    (hnew : ∀ stop, ⟨line, f.start, stop⟩ ∉ met) (hlast : ∀ g ∈ met, g.Precedes f)
    (hf : f.line = line) :
    EntrySpec seenLines lines (met ++ [f]) line
      { e with missing := e.missing ++ [⟨f.start, f.stop⟩] } := by
  have hbefore : ∀ r ∈ e.missing, r.start < f.start := by
    intro r hr
    have hmem := h.attained r hr
    have hle : r.start ≤ f.start := (hlast _ hmem hf.symm).1
    have hne : r.start ≠ f.start := fun heq => hnew r.stop (heq ▸ hmem)
    omega
  refine ⟨h.mixed, h.source, ?_, ?_, ?_, ?_⟩
  · refine List.pairwise_append.2 ⟨h.ascending, List.pairwise_singleton .., ?_⟩
    intro r hr s hs
    obtain rfl := List.mem_singleton.1 hs
    exact hbefore r hr
  · intro start stop hmem
    rcases List.mem_append.1 hmem with hmem | hmem
    · obtain ⟨r, hr, hstart⟩ := h.starts start stop hmem
      exact ⟨r, List.mem_append_left _ hr, hstart⟩
    · obtain rfl := List.mem_singleton.1 hmem
      exact ⟨_, List.mem_append_right _ (List.mem_singleton_self _), rfl⟩
  · intro r hr
    rcases List.mem_append.1 hr with hr | hr
    · exact List.mem_append_left _ (h.attained r hr)
    · obtain rfl := List.mem_singleton.1 hr
      exact List.mem_append_right _ (List.mem_singleton.2 (hf ▸ rfl))
  · intro r hr stop hmem
    rcases List.mem_append.1 hr with hr | hr
    · rcases List.mem_append.1 hmem with hmem | hmem
      · exact h.least r hr stop hmem
      · have hstart : r.start = f.start := congrArg Fragment.start (List.mem_singleton.1 hmem)
        exact absurd (hbefore r hr) (hstart ▸ Nat.lt_irrefl _)
    · obtain rfl := List.mem_singleton.1 hr
      rcases List.mem_append.1 hmem with hmem | hmem
      · exact absurd hmem (hnew stop)
      · have hstop : stop = f.stop := congrArg Fragment.stop (List.mem_singleton.1 hmem)
        exact Nat.le_of_eq hstop.symm

theorem EntrySpec.congr {met' : List Fragment} (h : EntrySpec seenLines lines met line e)
    (hmet : ∀ g, g ∈ met ↔ g ∈ met') : EntrySpec seenLines lines met' line e where
  mixed := h.mixed
  source := h.source
  ascending := h.ascending
  starts start stop hmem := h.starts start stop ((hmet _).2 hmem)
  attained r hr := (hmet _).1 (h.attained r hr)
  least r hr stop hmem := h.least r hr stop ((hmet _).2 hmem)

theorem EntrySpec.seen_congr {seenLines' : List Nat} (h : EntrySpec seenLines lines met line e)
    (hseen : seenLines.contains line = seenLines'.contains line) :
    EntrySpec seenLines' lines met line e :=
  { h with mixed := h.mixed.trans hseen }

theorem EntrySpec.mem_missing {e' : LineEntry} (h : EntrySpec seenLines lines met line e)
    (h' : EntrySpec seenLines lines met line e') {r : ColumnRange} (hr : r ∈ e.missing) :
    r ∈ e'.missing := by
  have hmem := h.attained r hr
  obtain ⟨s, hs, hstart⟩ := h'.starts _ _ hmem
  have hle : s.stop ≤ r.stop := h'.least s hs r.stop (hstart ▸ hmem)
  have hge : r.stop ≤ s.stop := h.least r hr s.stop (hstart ▸ h'.attained s hs)
  obtain rfl : s = r := by
    cases s
    cases r
    simp only [ColumnRange.mk.injEq]
    exact ⟨hstart, Nat.le_antisymm hle hge⟩
  exact hs

/-- The fragments leave no choice. -/
theorem EntrySpec.unique {e' : LineEntry} (h : EntrySpec seenLines lines met line e)
    (h' : EntrySpec seenLines lines met line e') : e = e' := by
  have hnodup {l : List ColumnRange} (hl : l.Pairwise fun r s => r.start < s.start) : l.Nodup := by
    refine hl.imp fun {r s} hlt heq => ?_
    exact Nat.lt_irrefl s.start (heq ▸ hlt)
  have hperm : e.missing.Perm e'.missing := by
    refine (List.perm_ext_iff_of_nodup (hnodup h.ascending) (hnodup h'.ascending)).2 fun r => ?_
    exact ⟨h.mem_missing h', h'.mem_missing h⟩
  have hmissing : e.missing = e'.missing :=
    hperm.eq_of_pairwise (fun _ _ _ _ hlt hgt => absurd hlt (Nat.lt_asymm hgt)) h.ascending
      h'.ascending
  cases e
  cases e'
  simp only [LineEntry.mk.injEq]
  exact ⟨h.mixed.trans h'.mixed.symm, h.source.trans h'.source.symm, hmissing⟩

end Entry

namespace Pass

/-- What the pass holds once it has met these fragments. -/
structure Holds (seenLines : List Nat) (lines : List String) (met : List Fragment) (p : Pass) :
    Prop where
  kept : ∀ line column, column ∈ (p.kept.find? line).getD [] ↔ ∃ stop, ⟨line, column, stop⟩ ∈ met
  keys : ∀ lineno, lineno ∈ p.coverage.keys ↔ ∃ f ∈ met, f.line + 1 = lineno
  entries : ∀ line e, p.coverage.find? (line + 1) = some e → EntrySpec seenLines lines met line e

theorem exists_stop_concat {met : List Fragment} {f : Fragment} {line column : Nat} :
    (∃ stop, ⟨line, column, stop⟩ ∈ met ++ [f]) ↔
      (∃ stop, ⟨line, column, stop⟩ ∈ met) ∨ f.line = line ∧ f.start = column := by
  simp only [List.mem_append, List.mem_singleton, exists_or]
  refine or_congr_right ⟨?_, ?_⟩
  · rintro ⟨stop, rfl⟩
    exact ⟨rfl, rfl⟩
  · rintro ⟨rfl, rfl⟩
    exact ⟨f.stop, rfl⟩

variable {seenLines : List Nat} {lines : List String} {met : List Fragment} {p : Pass}
  {l : Location}

theorem holds_start : Pass.start.Holds seenLines lines [] where
  kept line column := by simp [start]
  keys lineno := by simp [start, OrderedMap.keys, OrderedMap.empty]
  entries line e he := by simp [start] at he

/-- The entry that a range is added to, also when the range is the first of its line. -/
theorem Holds.entrySpec_getD (h : p.Holds seenLines lines met) (line : Nat) :
    EntrySpec seenLines lines met line
      ((p.coverage.find? (line + 1)).getD (unmarked seenLines lines line)) := by
  cases hfound : p.coverage.find? (line + 1) with
  | some e => exact h.entries line e hfound
  | none =>
      refine entrySpec_unmarked fun g hg hline => ?_
      obtain ⟨e, he⟩ := (OrderedMap.mem_keys_iff _ _).1 ((h.keys (line + 1)).2 ⟨g, hg, by rw [hline]⟩)
      rw [hfound] at he
      cases he

theorem Holds.take_kept (h : p.Holds seenLines lines met) (hlast : ∀ f ∈ met, f.Precedes l.fragment)
    (hkept : l.startColumn ∈ (p.kept.find? l.startLine).getD []) :
    p.Holds seenLines lines (met ++ [l.fragment]) := by
  obtain ⟨held, hheld⟩ := (h.kept _ _).1 hkept
  refine ⟨fun line column => ?_, fun lineno => ?_, fun line e he => ?_⟩
  · rw [exists_stop_concat, h.kept]
    refine (or_iff_left_of_imp ?_).symm
    rintro ⟨rfl, rfl⟩
    exact ⟨held, hheld⟩
  · rw [h.keys]
    simp only [List.mem_append, List.mem_singleton, or_and_right, exists_or, exists_eq_left]
    refine (or_iff_left_of_imp fun hline => ?_).symm
    exact ⟨_, hheld, hline⟩
  · by_cases hline : l.startLine = line
    · subst hline
      exact (h.entries _ e he).sameColumn hheld hlast rfl
    · exact (h.entries line e he).otherLine hline

theorem Holds.take_new (h : p.Holds seenLines lines met) (hlast : ∀ f ∈ met, f.Precedes l.fragment)
    (hnew : l.startColumn ∉ (p.kept.find? l.startLine).getD []) :
    (p.take seenLines lines l).Holds seenLines lines (met ++ [l.fragment]) := by
  rw [take, if_neg hnew]
  refine ⟨fun line column => ?_, fun lineno => ?_, fun line e he => ?_⟩
  · rw [exists_stop_concat, ← h.kept, OrderedMap.find?_insert]
    by_cases hline : line = l.startLine
    · subst hline
      rw [if_pos rfl, Option.getD_some, List.mem_cons, or_comm, eq_comm]
      simp [Location.fragment]
    · rw [if_neg hline, or_iff_left fun h => hline h.1.symm]
  · rw [OrderedMap.mem_keys_alter, h.keys]
    simp only [List.mem_append, List.mem_singleton, or_and_right, exists_or, exists_eq_left]
    rw [or_comm, eq_comm (a := lineno)]
    rfl
  · rw [OrderedMap.find?_alter_of_eq] at he
    split at he
    · rename_i hline
      obtain rfl : line = l.startLine := Nat.add_right_cancel hline
      cases he
      refine (h.entrySpec_getD l.startLine).newColumn (f := l.fragment) (fun stop hmem => ?_) hlast rfl
      exact hnew ((h.kept _ _).2 ⟨stop, hmem⟩)
    · rename_i hline
      exact (h.entries line e he).otherLine fun heq => hline (by rw [← heq]; rfl)

/-- One location: it marks its column if that is new, and nothing else. -/
theorem Holds.take (h : p.Holds seenLines lines met) (hlast : ∀ f ∈ met, f.Precedes l.fragment) :
    (p.take seenLines lines l).Holds seenLines lines (met ++ [l.fragment]) := by
  by_cases hkept : l.startColumn ∈ (p.kept.find? l.startLine).getD []
  · rw [Pass.take, if_pos hkept]
    exact h.take_kept hlast hkept
  · exact h.take_new hlast hkept

/-- A whole pass over sorted locations. -/
theorem Holds.foldl (h : p.Holds seenLines lines met) {rest : List Location}
    (hsorted : (met ++ rest.map (·.fragment)).Pairwise Fragment.Precedes) :
    (rest.foldl (Pass.take seenLines lines) p).Holds seenLines lines
      (met ++ rest.map (·.fragment)) := by
  induction rest generalizing p met with
  | nil => simpa using h
  | cons l rest ih =>
      rw [List.map_cons, List.append_cons] at hsorted ⊢
      have hlast : ∀ f ∈ met, f.Precedes l.fragment := fun f hf =>
        (List.pairwise_append.1 (List.pairwise_append.1 hsorted).1).2.2 f hf _
          (List.mem_singleton_self _)
      exact ih (h.take hlast) hsorted

end Pass

variable {missing missing' seen seen' : List Node} {lines : List String}

/-- The fragments of the missing nodes, in the order of the nodes. -/
abbrev fragmentsOf (missing : List Node) (lines : List String) : List Fragment :=
  missing.flatMap fun n => n.span.fragments lines

/-- On one line are the nodes that need no cutting and the fragments of the others. -/
theorem exists_location_iff (missing : List Node) (lines : List String) (f : Fragment) :
    (∃ l ∈ locations missing lines, l.isMultiLine = false ∧ l.fragment = f) ↔
      f ∈ fragmentsOf missing lines := by
  have hfragments (n : Node) : f ∈ n.span.fragments lines ↔
      (n.span.isMultiLine = false ∧ n.span.location.fragment = f) ∨ f ∈ n.span.explode lines := by
    cases hmulti : n.span.isMultiLine
    · simp [Span.fragments, Span.explode, hmulti, Span.location, Location.fragment, eq_comm]
    · simp [Span.fragments, hmulti]
  have hspan (s : Span) : s.location.isMultiLine = s.isMultiLine := by
    rw [Bool.eq_iff_iff, Span.isMultiLine_iff]
    exact decide_eq_true_iff
  have hfragment (g : Fragment) : g.location.isMultiLine = false ∧ g.location.fragment = g :=
    ⟨decide_eq_false (Nat.lt_irrefl _), rfl⟩
  simp only [locations, explodeAll, List.mem_append, List.mem_map, List.mem_flatMap, hfragments]
  constructor
  · rintro ⟨l, ⟨n, hn, rfl⟩ | ⟨g, ⟨n, hn, hg⟩, rfl⟩, hsingle, hf⟩
    · exact ⟨n, hn, .inl ⟨hspan n.span ▸ hsingle, hf⟩⟩
    · exact ⟨n, hn, .inr (hf ▸ hg)⟩
  · rintro ⟨n, hn, ⟨hsingle, hf⟩ | hf⟩
    · exact ⟨n.span.location, .inl ⟨n, hn, rfl⟩, hspan n.span ▸ hsingle, hf⟩
    · exact ⟨f.location, .inr ⟨f, ⟨n, hn, hf⟩, rfl⟩, hfragment f⟩

/-- What the pass of `ofNodes` goes over. -/
abbrev sortedFragments (missing : List Node) (lines : List String) : List Fragment :=
  (((locations missing lines).mergeSort Location.le).filter fun l => !l.isMultiLine).map
    (·.fragment)

theorem mem_sortedFragments_iff (f : Fragment) :
    f ∈ sortedFragments missing lines ↔ f ∈ fragmentsOf missing lines := by
  rw [← exists_location_iff, List.mem_map]
  simp only [List.mem_filter, List.mem_mergeSort, Bool.not_eq_true', and_assoc]

theorem sortedFragments_pairwise (missing : List Node) (lines : List String) :
    (sortedFragments missing lines).Pairwise Fragment.Precedes :=
  List.pairwise_map.2 <|
    ((List.pairwise_mergeSort Location.le_trans Location.le_total _).filter _).imp
      Location.precedes_of_le

/-- Where the nodes are listed in the order of the lines, the pass goes over them as they
stand. -/
theorem ofNodes_of_sorted (h : (locations missing lines).Pairwise fun l k => Location.le l k = true)
    (seen : List Node) : ofNodes missing seen lines =
      (((locations missing lines).filter fun l => !l.isMultiLine).foldl
        (Pass.take (seen.map (·.span.startLine.toNat)) lines) .start).coverage := by
  rw [ofNodes, List.mergeSort_of_pairwise h]

theorem holds_ofNodes (missing seen : List Node) (lines : List String) :
    ∃ p : Pass, p.coverage = ofNodes missing seen lines ∧
      p.Holds (seen.map (·.span.startLine.toNat)) lines (sortedFragments missing lines) :=
  ⟨_, rfl, Pass.holds_start.foldl (by simpa using sortedFragments_pairwise missing lines)⟩

theorem mem_keys_ofNodes (missing seen : List Node) (lines : List String) (lineno : Nat) :
    lineno ∈ (ofNodes missing seen lines).keys ↔
      ∃ n ∈ missing, ∃ f ∈ n.span.fragments lines, f.line + 1 = lineno := by
  obtain ⟨p, hp, h⟩ := holds_ofNodes missing seen lines
  rw [← hp, h.keys]
  simp only [mem_sortedFragments_iff, List.mem_flatMap]
  constructor
  · rintro ⟨f, ⟨n, hn, hf⟩, hline⟩
    exact ⟨n, hn, f, hf, hline⟩
  · rintro ⟨n, hn, f, hf, hline⟩
    exact ⟨f, ⟨n, hn, hf⟩, hline⟩

theorem entrySpec_ofNodes {line : Nat} {e : LineEntry}
    (h : (ofNodes missing seen lines).find? (line + 1) = some e) :
    EntrySpec (seen.map (·.span.startLine.toNat)) lines (fragmentsOf missing lines) line e := by
  obtain ⟨p, hp, hholds⟩ := holds_ofNodes missing seen lines
  exact (hholds.entries line e (hp ▸ h)).congr fun f => mem_sortedFragments_iff f

/-- No line has the number zero. -/
theorem exists_line_of_find? {lineno : Nat} {e : LineEntry}
    (h : (ofNodes missing seen lines).find? lineno = some e) : ∃ line, lineno = line + 1 := by
  obtain ⟨n, -, f, -, hline⟩ :=
    (mem_keys_ofNodes missing seen lines lineno).1 ((OrderedMap.mem_keys_iff _ _).2 ⟨e, h⟩)
  exact ⟨f.line, hline.symm⟩


theorem source_of_find? {lineno : Nat} {e : LineEntry}
    (h : (ofNodes missing seen lines).find? lineno = some e) :
    e.source = (lines[lineno - 1]?).getD "" := by
  obtain ⟨line, rfl⟩ := exists_line_of_find? h
  exact (entrySpec_ofNodes h).source

theorem ascending_of_find? {lineno : Nat} {e : LineEntry}
    (h : (ofNodes missing seen lines).find? lineno = some e) :
    e.missing.Pairwise fun r s => r.start < s.start := by
  obtain ⟨line, rfl⟩ := exists_line_of_find? h
  exact (entrySpec_ofNodes h).ascending

/-- The map depends on the nodes, not on the order in which they stand. -/
theorem ofNodes_congr (lines : List String) (hmissing : ∀ n, n ∈ missing ↔ n ∈ missing')
    (hseen : ∀ n, n ∈ seen ↔ n ∈ seen') :
    ofNodes missing seen lines = ofNodes missing' seen' lines := by
  have hmet (f : Fragment) : f ∈ fragmentsOf missing' lines ↔ f ∈ fragmentsOf missing lines := by
    simp only [List.mem_flatMap, hmissing]
  have hmixed (line : Nat) : (seen'.map (·.span.startLine.toNat)).contains line =
      (seen.map (·.span.startLine.toNat)).contains line := by
    rw [Bool.eq_iff_iff, List.contains_iff_mem, List.contains_iff_mem, List.mem_map, List.mem_map]
    simp only [hseen]
  have hkeys (lineno : Nat) : lineno ∈ (ofNodes missing seen lines).keys ↔
      lineno ∈ (ofNodes missing' seen' lines).keys := by
    rw [mem_keys_ofNodes, mem_keys_ofNodes]
    simp only [hmissing]
  apply OrderedMap.ext_find?
  intro lineno
  have hlineno := hkeys lineno
  rw [OrderedMap.mem_keys_iff, OrderedMap.mem_keys_iff] at hlineno
  cases hfound : (ofNodes missing seen lines).find? lineno with
  | none =>
      cases hfound' : (ofNodes missing' seen' lines).find? lineno with
      | none => rfl
      | some e' => simp [hfound, hfound'] at hlineno
  | some e =>
      obtain ⟨e', hfound'⟩ := hlineno.1 ⟨e, hfound⟩
      obtain ⟨line, rfl⟩ := exists_line_of_find? hfound
      have hspec' := (entrySpec_ofNodes hfound').congr hmet
      rw [hfound', (entrySpec_ofNodes hfound).unique (hspec'.seen_congr (hmixed line))]

theorem fragmentsOf_subset (h : missing' ⊆ missing) :
    fragmentsOf missing' lines ⊆ fragmentsOf missing lines := by
  intro f hf
  obtain ⟨n, hn, hfragment⟩ := List.mem_flatMap.1 hf
  exact List.mem_flatMap.2 ⟨n, h hn, hfragment⟩

theorem keys_subset (h : missing' ⊆ missing) :
    (ofNodes missing' seen' lines).keys ⊆ (ofNodes missing seen lines).keys := by
  intro lineno hlineno
  rw [mem_keys_ofNodes] at hlineno ⊢
  obtain ⟨n, hn, hfragment⟩ := hlineno
  exact ⟨n, h hn, hfragment⟩

/-- The later entry of a line misses less: no new start column, no smaller end. -/
structure Shrinks (earlier later : LineEntry) : Prop where
  starts : later.missing.map (·.start) ⊆ earlier.missing.map (·.start)
  stops : ∀ r ∈ earlier.missing, ∀ r' ∈ later.missing, r.start = r'.start → r.stop ≤ r'.stop
  mixed : earlier.mixed = true → later.mixed = true

theorem shrinks_of_subset (hmissing : missing' ⊆ missing) (hseen : seen ⊆ seen') {lineno : Nat}
    {e e' : LineEntry} (h : (ofNodes missing seen lines).find? lineno = some e)
    (h' : (ofNodes missing' seen' lines).find? lineno = some e') : Shrinks e e' := by
  obtain ⟨line, rfl⟩ := exists_line_of_find? h
  have hspec := entrySpec_ofNodes h
  have hspec' := entrySpec_ofNodes h'
  have hmet : fragmentsOf missing' lines ⊆ fragmentsOf missing lines := fragmentsOf_subset hmissing
  constructor
  · intro start hstart
    obtain ⟨r', hr', rfl⟩ := List.mem_map.1 hstart
    obtain ⟨r, hr, hsame⟩ := hspec.starts _ _ (hmet (hspec'.attained r' hr'))
    exact List.mem_map.2 ⟨r, hr, hsame⟩
  · intro r hr r' hr' hstart
    exact hspec.least r hr r'.stop (hstart ▸ hmet (hspec'.attained r' hr'))
  · rw [hspec.mixed, hspec'.mixed, List.contains_iff_mem, List.contains_iff_mem]
    intro hline
    exact List.map_subset _ hseen hline

end LineMap

end Coverage
