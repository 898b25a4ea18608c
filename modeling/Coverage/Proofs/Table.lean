import Coverage.Proofs.Text.Absent
import Coverage.Proofs.Totals
import Coverage.Table

/-!
Tables that files are pushed to. Every push adds one row and computes the footer anew from
the sums; what the sums held before is added to, part by part. Beside names a table holds
numbers, percentages and fixed texts only.
-/
namespace Coverage

/-- No more is seen than there is, and the shares are numbers. -/
structure Snapshot.IsRegular (s : Snapshot) : Prop where
  lines : s.seen ≤ s.total
  blocks : s.blocks.seen ≤ s.blocks.total
  lineShare : (Binary64.ofFloat s.percentage).isFinite = true
  blockShare : (Binary64.ofFloat s.blocks.percentage).isFinite = true

/-- The cells of a footer show nothing of the file. -/
structure Snapshot.CountsNothing (s : Snapshot) : Prop where
  lines : s.total = 0
  missingLines : s.missing = 0
  blocks : s.blocks.total = 0
  missingBlocks : s.blocks.missing = 0

/-- A snapshot that was taken of a manifest is regular. -/
theorem Snapshot.isRegular_ofLines (m : Manifest) (r : Recorder) {lines : List String}
    (source : String) (hlines : lines.length < 2 ^ 64) (hblocks : m.blockCount < 2 ^ 64) :
    (ofLines m r lines source).IsRegular where
  lines := Nat.sub_le _ _
  blocks := Nat.min_le_right _ _
  lineShare := ratio_isFinite _ hlines
  blockShare := ratio_isFinite _ hblocks

namespace Sums

variable (sums : Sums) (files : List (String × Snapshot))

def addAll : Sums := files.foldl (fun sums f => sums.add f.2) sums

theorem addAll_cons (f : String × Snapshot) :
    sums.addAll (f :: files) = (sums.add f.2).addAll files := rfl

theorem addAll_eq : sums.addAll files =
    { seenLines := sums.seenLines + (files.map (·.2.seen)).sum
      missingLines := sums.missingLines + (files.map (·.2.missing)).sum
      totalLines := sums.totalLines + (files.map (·.2.total)).sum
      seenBlocks := sums.seenBlocks + (files.map (·.2.blocks.seen)).sum
      missingBlocks := sums.missingBlocks + (files.map (·.2.blocks.missing)).sum
      totalBlocks := sums.totalBlocks + (files.map (·.2.blocks.total)).sum } := by
  induction files generalizing sums with
  | nil => rfl
  | cons f rest ih =>
      rw [addAll_cons, ih]
      simp only [add, List.map_cons, List.sum_cons, Nat.add_assoc]

/-- Both totals are numbers of sixty-four bits. -/
structure Fits : Prop where
  lines : sums.totalLines < 2 ^ 64
  blocks : sums.totalBlocks < 2 ^ 64

variable {sums files}

/-- Totals that fit together fit one by one. -/
theorem Fits.of_mem (h : (sums.addAll files).Fits) {f : String × Snapshot} (hf : f ∈ files) :
    f.2.total < 2 ^ 64 ∧ f.2.blocks.total < 2 ^ 64 := by
  obtain ⟨hlines, hblocks⟩ := h
  simp only [addAll_eq] at hlines hblocks
  have hline := List.le_sum_of_mem (List.mem_map_of_mem (f := (·.2.total)) hf)
  have hblock := List.le_sum_of_mem (List.mem_map_of_mem (f := (·.2.blocks.total)) hf)
  omega

end Sums

/-- A character of no number and of no fixed text of a table. -/
structure Table.Foreign (c : Char) : Prop where
  digit : Numeral.isDigit c = false
  minus : c ∉ "-".toList
  percent : c ∉ "%".toList
  ellipsis : c ∉ "…".toList
  total : c ∉ "Total (".toList
  files : c ∉ " files)".toList

section Foreign

variable {c : Char} (hc : Table.Foreign c)

include hc

theorem Row.not_mem_shorten {name : String} (h : c ∉ name.toList) : c ∉ (shorten name).toList := by
  rw [shorten]
  split
  · refine Text.not_mem_append hc.ellipsis fun hmem => ?_
    rw [String.toList_ofList] at hmem
    exact h (List.mem_of_mem_drop hmem)
  · exact h

theorem Row.not_mem_of_mem_values {label value : String} {lines blocks : Float}
    {missingLines totalLines missingBlocks totalBlocks : Nat}
    (h : value ∈ (make label lines missingLines totalLines blocks missingBlocks totalBlocks).values) :
    c ∉ value.toList := by
  have hnumber (n : Nat) : c ∉ (toString n).toList := Text.not_mem_toString hc.digit n
  have hshare (share : Float) : c ∉ (percentText share).toList :=
    Text.not_mem_percentText hc.digit hc.minus hc.percent share
  simp only [make, List.mem_cons, List.not_mem_nil, or_false] at h
  rcases h with rfl | rfl | rfl | rfl | rfl | rfl
  · exact hshare _
  · exact hnumber _
  · exact hnumber _
  · exact hshare _
  · exact hnumber _
  · exact hnumber _

theorem Sums.not_mem_footer_label (sums : Sums) (files : Nat) :
    c ∉ (sums.footer files).label.toList :=
  Text.not_mem_append (Text.not_mem_append hc.total (Text.not_mem_toString hc.digit files)) hc.files

end Foreign

namespace Table

variable (t : Table) (files : List (String × Snapshot))

theorem pushAll_cons (f : String × Snapshot) :
    t.pushAll (f :: files) = (t.push f.1 f.2).pushAll files := rfl

@[simp]
theorem pushAll_headers : (t.pushAll files).headers = t.headers := by
  induction files generalizing t with
  | nil => rfl
  | cons f rest ih => exact ih (t.push f.1 f.2)

@[simp]
theorem pushAll_rows :
    (t.pushAll files).rows = t.rows ++ files.map fun f => .ofSnapshot f.1 f.2 := by
  induction files generalizing t with
  | nil => exact (List.append_nil _).symm
  | cons f rest ih =>
      rw [pushAll_cons, ih, List.map_cons]
      exact List.append_assoc ..

theorem pushAll_footer (h : files ≠ []) :
    (t.pushAll files).footer = (t.sums.addAll files).footer (t.rows.length + files.length) := by
  induction files generalizing t with
  | nil => exact absurd rfl h
  | cons f rest ih =>
      have hrows : (t.push f.1 f.2).rows.length = t.rows.length + 1 := by simp [push]
      cases rest with
      | nil => simp [pushAll, push, Sums.addAll]
      | cons g more =>
          rw [pushAll_cons, ih _ (List.cons_ne_nil g more), hrows, Sums.addAll_cons,
            List.length_cons (a := f)]
          exact congrArg _ (by omega)

@[simp]
theorem pushAll_sums : (t.pushAll files).sums = t.sums.addAll files := by
  induction files generalizing t with
  | nil => rfl
  | cons f rest ih => exact ih (t.push f.1 f.2)

theorem pushAll_empty_rows :
    (empty.pushAll files).rows = files.map fun f => .ofSnapshot f.1 f.2 :=
  pushAll_rows empty files

/-- The footer of a new table counts every row. -/
theorem pushAll_empty_footer :
    (empty.pushAll files).footer = (Sums.zero.addAll files).footer files.length := by
  by_cases h : files = []
  · rw [h]
    rfl
  · rw [pushAll_footer _ _ h, empty, List.length_nil, Nat.zero_add]

end Table

end Coverage
