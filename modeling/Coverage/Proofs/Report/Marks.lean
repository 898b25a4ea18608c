import Coverage.Proofs.LineMap.Narrowest
import Coverage.Report
import Mathlib.Data.List.Induction

/-!
The marks below a line. A column is named by the ranges if it lies in one of them or if an
empty one starts there. Every named column is marked. One more mark than that is made by a
range that lies within what the ranges before it have marked: it spills into the first column
behind them.
-/
namespace Coverage.Listing

variable {ranges before : List ColumnRange} {column : Nat}

/-- How far the marks of some ranges reach. -/
abbrev reach (ranges : List ColumnRange) : Nat := (ranges.foldl mark []).length

/-- Some range has its mark in the column. -/
def Marked (ranges : List ColumnRange) (column : Nat) : Prop :=
  (ranges.foldl mark [])[column]? = some '^'

def Names (ranges : List ColumnRange) (column : Nat) : Prop :=
  ∃ r ∈ ranges, r.start ≤ column ∧ column < r.stop ∨ r.stop ≤ r.start ∧ column = r.start

/-- The column is the first one behind the marks of some ranges, and the next range starts
before it and ends by then. -/
def Spills (ranges : List ColumnRange) (column : Nat) : Prop :=
  ∃ before r after, ranges = before ++ r :: after ∧ column = reach before ∧
    r.start < column ∧ r.stop ≤ column

/-- No range lies within one that stands before it. -/
def NoneWithin (ranges : List ColumnRange) : Prop :=
  ranges.Pairwise fun q r => r.start < q.stop → q.stop < r.stop

/-- The columns that a range marks behind `reached` columns. -/
def Covers (r : ColumnRange) (reached column : Nat) : Prop :=
  max r.start reached ≤ column ∧ column < max r.stop (max r.start reached + 1)

@[simp]
theorem length_mark (marks : List Char) (r : ColumnRange) :
    (mark marks r).length = max r.stop (max r.start marks.length + 1) := by
  simp only [mark, List.length_append, List.length_replicate]
  omega

theorem getElem?_mark (marks : List Char) (r : ColumnRange) (column : Nat) :
    (mark marks r)[column]? = some '^' ↔
      marks[column]? = some '^' ∨ Covers r marks.length column := by
  unfold mark Covers
  by_cases hold : column < marks.length
  · rw [List.append_assoc, List.getElem?_append_left hold]
    exact (or_iff_left (by omega)).symm
  · have hnone : marks[column]? = none := List.getElem?_eq_none (Nat.not_lt.1 hold)
    rw [hnone]
    by_cases hblank : column < max r.start marks.length
    · rw [List.getElem?_append_left (by simp; omega), List.getElem?_append_right (by omega),
        List.getElem?_replicate_of_lt (by omega)]
      simp
      omega
    · rw [List.getElem?_append_right (by simp; omega), List.getElem?_replicate]
      simp
      omega

theorem reach_concat (before : List ColumnRange) (r : ColumnRange) :
    reach (before ++ [r]) = max r.stop (max r.start (reach before) + 1) := by
  rw [reach, List.foldl_append]
  exact length_mark _ r

theorem marked_concat (before : List ColumnRange) (r : ColumnRange) (column : Nat) :
    Marked (before ++ [r]) column ↔ Marked before column ∨ Covers r (reach before) column := by
  rw [Marked, List.foldl_append]
  exact getElem?_mark _ r column

/-- Every mark is made by one of the ranges, behind the marks of those before it. -/
theorem marked_iff (ranges : List ColumnRange) (column : Nat) :
    Marked ranges column ↔
      ∃ before r after, ranges = before ++ r :: after ∧ Covers r (reach before) column := by
  induction ranges using List.reverseRecOn with
  | nil => simp [Marked]
  | append_singleton ranges last ih =>
      rw [marked_concat, ih]
      constructor
      · intro hmarked
        rcases hmarked with ⟨before, r, after, hsplit, hcovers⟩ | hcovers
        · exact ⟨before, r, after ++ [last], by rw [hsplit]; simp, hcovers⟩
        · exact ⟨ranges, last, [], rfl, hcovers⟩
      · intro hexists
        obtain ⟨before, r, after, hsplit, hcovers⟩ := hexists
        rcases List.eq_nil_or_concat after with rfl | ⟨after, b, rfl⟩
        · obtain ⟨rfl, hlast⟩ := List.append_inj' hsplit rfl
          obtain rfl : last = r := List.singleton_inj.1 hlast
          exact .inr hcovers
        · have hsplit' : ranges ++ [last] = (before ++ r :: after) ++ [b] := by
            rw [hsplit]
            simp
          exact .inl ⟨before, r, after, (List.append_inj' hsplit' rfl).1, hcovers⟩

/-- Blanks are left only in front of a start. -/
theorem marked_of_lt_reach (hreach : column < reach before)
    (hstarts : ∀ q ∈ before, q.start ≤ column) : Marked before column := by
  induction before using List.reverseRecOn with
  | nil => cases hreach
  | append_singleton before last ih =>
      rw [marked_concat]
      rw [reach_concat] at hreach
      have hlast : last.start ≤ column := hstarts last (by simp)
      by_cases hold : column < reach before
      · exact .inl (ih hold fun q hq => hstarts q (List.mem_append_left _ hq))
      · exact .inr ⟨by omega, hreach⟩

theorem marked_of_spills (h : Spills ranges column) : Marked ranges column := by
  obtain ⟨before, r, after, hsplit, hreach, hstart, hstop⟩ := h
  rw [marked_iff]
  exact ⟨before, r, after, hsplit, by omega, by omega⟩

theorem marked_of_names (hascending : ranges.Pairwise fun q r => q.start < r.start)
    (h : Names ranges column) : Marked ranges column := by
  obtain ⟨r, hr, hcolumn⟩ := h
  obtain ⟨before, after, hsplit⟩ := List.append_of_mem hr
  have hstarts : ∀ q ∈ before, q.start ≤ column := by
    intro q hq
    rw [hsplit, List.pairwise_append] at hascending
    have hlt := hascending.2.2 q hq r List.mem_cons_self
    omega
  rw [marked_iff]
  by_cases hold : column < reach before
  · obtain ⟨first, q, rest, hfirst, hcovers⟩ :=
      (marked_iff before column).1 (marked_of_lt_reach hold hstarts)
    exact ⟨first, q, rest ++ r :: after, by rw [hsplit, hfirst]; simp, hcovers⟩
  · exact ⟨before, r, after, hsplit, by omega, by omega⟩

/-- Ranges that ascend mark the columns that they name, and those they spill into. -/
theorem marked_iff_names_or_spills (hascending : ranges.Pairwise fun q r => q.start < r.start)
    (column : Nat) : Marked ranges column ↔ Names ranges column ∨ Spills ranges column := by
  constructor
  · intro hmarked
    obtain ⟨before, r, after, hsplit, hcovers⟩ := (marked_iff ranges column).1 hmarked
    unfold Covers at hcovers
    have hr : r ∈ ranges := by
      rw [hsplit]
      simp
    by_cases hspills : r.start < column ∧ r.stop ≤ column
    · exact .inr ⟨before, r, after, hsplit, by omega, hspills⟩
    · exact .inl ⟨r, hr, by omega⟩
  · intro h
    exact h.elim (marked_of_names hascending) marked_of_spills

section Spill

theorem le_reach_of_mem {q : ColumnRange} (h : q ∈ before) : q.stop ≤ reach before := by
  induction before using List.reverseRecOn with
  | nil => cases h
  | append_singleton before last ih =>
      rw [reach_concat]
      rcases List.mem_append.1 h with hold | hlast
      · have hreach := ih hold
        omega
      · rw [List.mem_singleton.1 hlast]
        omega

/-- Marks reach as far as the last range does, unless it lies within an earlier one. -/
theorem reach_concat_of_noneWithin {last : ColumnRange}
    (hascending : (before ++ [last]).Pairwise fun q r => q.start < r.start)
    (hnone : NoneWithin (before ++ [last])) :
    reach (before ++ [last]) = max last.stop (last.start + 1) := by
  induction before using List.reverseRecOn generalizing last with
  | nil =>
      rw [reach_concat]
      exact congrArg (fun start => max last.stop (start + 1)) (Nat.max_zero _)
  | append_singleton before q ih =>
      rw [NoneWithin, List.pairwise_append] at hnone
      rw [List.pairwise_append] at hascending
      have hreach := ih hascending.1 hnone.1
      have hstart := hascending.2.2 q (by simp) last (by simp)
      have hstop := hnone.2.2 q (by simp) last (by simp)
      rw [reach_concat]
      omega

theorem Spills.append {first : List ColumnRange} (h : Spills first column)
    (rest : List ColumnRange) : Spills (first ++ rest) column := by
  obtain ⟨before, r, after, rfl, hspills⟩ := h
  exact ⟨before, r, after ++ rest, by simp, hspills⟩

theorem noneWithin_of_not_spills (h : ∀ column, ¬ Spills ranges column) : NoneWithin ranges := by
  induction ranges using List.reverseRecOn with
  | nil => exact .nil
  | append_singleton before last ih =>
      have hbefore : NoneWithin before := ih fun column hspills => h column (hspills.append [last])
      refine List.pairwise_append.2 ⟨hbefore, List.pairwise_singleton .., ?_⟩
      intro q hq r hr hstart
      obtain rfl : r = last := List.mem_singleton.1 hr
      by_contra hstop
      have hreach := le_reach_of_mem hq
      exact h (reach before) ⟨before, r, [], rfl, rfl, by omega, by omega⟩

/-- A range spills just if it lies within an earlier one. -/
theorem exists_spills_iff (hascending : ranges.Pairwise fun q r => q.start < r.start) :
    (∃ column, Spills ranges column) ↔ ¬ NoneWithin ranges := by
  constructor
  · intro hexists hnone
    obtain ⟨column, before, r, after, rfl, rfl, hstart, hstop⟩ := hexists
    rcases List.eq_nil_or_concat before with rfl | ⟨before, q, rfl⟩
    · cases hstart
    · rw [List.concat_eq_append] at hascending hnone hstart hstop
      rw [NoneWithin, List.pairwise_append] at hnone
      rw [List.pairwise_append] at hascending
      have hreach := reach_concat_of_noneWithin hascending.1 hnone.1
      have hlt := hascending.2.2 q (by simp) r (by simp)
      have hwithin := hnone.2.2 q (by simp) r (by simp)
      omega
  · intro hwithin
    by_contra hspills
    exact hwithin (noneWithin_of_not_spills (not_exists.1 hspills))

end Spill

/-- The carets below an entry, whose text starts behind the gutter and its rule. -/
structure MarksBelow (gutter : Nat) (e : LineEntry) : Prop where
  carets : ∀ i, (markLine gutter e).toList[i]? = some '^' ↔
    ∃ column, i = gutter + 5 + column ∧ (Names e.missing column ∨ Spills e.missing column)
  spills_iff : (∃ column, Spills e.missing column) ↔ ¬ NoneWithin e.missing

theorem getElem?_markLine (gutter : Nat) (e : LineEntry) (i : Nat) :
    (markLine gutter e).toList[i]? = some '^' ↔
      ∃ column, i = gutter + 5 + column ∧ Marked e.missing column := by
  have hline : (markLine gutter e).toList =
      (' ' :: ' ' :: List.replicate gutter ' ' ++ [' ', '|', ' ']) ++ e.missing.foldl mark [] := by
    simp [markLine, marks, Text.spaces]
  have hlength : (' ' :: ' ' :: List.replicate gutter ' ' ++ [' ', '|', ' ']).length =
      gutter + 5 := by
    simp
  have hfront : '^' ∉ ' ' :: ' ' :: List.replicate gutter ' ' ++ [' ', '|', ' '] := by
    simp
  rw [hline]
  by_cases hi : i < gutter + 5
  · rw [List.getElem?_append_left (by omega)]
    constructor
    · intro hcaret
      exact absurd (List.mem_of_getElem? hcaret) hfront
    · intro hexists
      obtain ⟨column, hcolumn, -⟩ := hexists
      omega
  · rw [List.getElem?_append_right (by omega), hlength]
    constructor
    · intro hcaret
      exact ⟨i - (gutter + 5), by omega, hcaret⟩
    · intro hexists
      obtain ⟨column, rfl, hmarked⟩ := hexists
      rwa [Nat.add_sub_cancel_left]

/-- Below each line of a snapshot the carets stand in the columns that the missing ranges name
and, where a range lies within an earlier one, in columns that they spill into. -/
theorem markLine_ofLines (filename : String) (m : Manifest) (r : Recorder) (lines : List String)
    (source : String) :
    let l : Listing := ⟨filename, .ofLines m r lines source⟩
    ∀ e ∈ l.snapshot.coverage.entries, markLine l.gutter e.2 ∈ l.lines ∧ MarksBelow l.gutter e.2 := by
  intro l e he
  have hfound := (l.snapshot.coverage.find?_eq_some_iff e.1 e.2).2 he
  have hascending := LineMap.ascending_of_find? hfound
  refine ⟨?_, ?_, exists_spills_iff hascending⟩
  · refine List.mem_cons_of_mem _ (List.mem_append_left _ (List.mem_flatMap.2 ⟨e, he, ?_⟩))
    simp
  · intro i
    rw [getElem?_markLine]
    simp only [marked_iff_names_or_spills hascending]

/-- A call with a call as its argument. -/
def nestedCalls : Manifest :=
  ⟨[⟨0, ⟨0, 0, 0, 5⟩, none⟩, ⟨1, ⟨0, 2, 0, 3⟩, none⟩], .indexed 0, by decide⟩

/-- Neither of the calls was reached. -/
def nested : Listing := ⟨"a.js", .ofLines nestedCalls .empty ["f(g); h();"] "f(g); h();"⟩

theorem coverage_nested :
    nested.snapshot.coverage.entries = [(1, ⟨false, "f(g); h();", [⟨0, 5⟩, ⟨2, 3⟩]⟩)] := by
  change (LineMap.ofNodes (nestedCalls.missing .empty) (nestedCalls.seen .empty)
    ["f(g); h();"]).entries = _
  rw [LineMap.ofNodes_of_sorted (by decide +kernel)]
  decide +kernel

theorem gutter_nested : nested.gutter = 1 := by
  have hkeys : nested.snapshot.coverage.keys = [1] := congrArg (·.map (·.1)) coverage_nested
  rw [gutter, hkeys]
  decide +kernel

theorem markLine_ofLines_nested :
    (1, ⟨false, "f(g); h();", [⟨0, 5⟩, ⟨2, 3⟩]⟩) ∈ nested.snapshot.coverage.entries ∧
      markLine nested.gutter ⟨false, "f(g); h();", [⟨0, 5⟩, ⟨2, 3⟩]⟩ ∈ nested.lines ∧
      MarksBelow nested.gutter ⟨false, "f(g); h();", [⟨0, 5⟩, ⟨2, 3⟩]⟩ := by
  have hentry : (1, ⟨false, "f(g); h();", [⟨0, 5⟩, ⟨2, 3⟩]⟩) ∈ nested.snapshot.coverage.entries := by
    rw [coverage_nested]
    exact List.mem_singleton_self _
  exact ⟨hentry, markLine_ofLines "a.js" nestedCalls .empty ["f(g); h();"] "f(g); h();" _ hentry⟩

/-- The outer call has five columns and gets six carets. -/
theorem markLine_nested : ∃ e, nested.snapshot.coverage.find? 1 = some e ∧
    e.missing = [⟨0, 5⟩, ⟨2, 3⟩] ∧ markLine nested.gutter e = "    | ^^^^^^" ∧
    (markLine nested.gutter e).toList[nested.gutter + 5 + 5]? = some '^' ∧
    ¬ Names e.missing 5 := by
  refine ⟨⟨false, "f(g); h();", [⟨0, 5⟩, ⟨2, 3⟩]⟩, ?_, rfl, ?_, ?_, ?_⟩
  · rw [OrderedMap.find?_eq_some_iff, coverage_nested]
    exact List.mem_singleton_self _
  · rw [gutter_nested]
    decide +kernel
  · rw [gutter_nested]
    decide +kernel
  · simp [Names]

end Coverage.Listing
