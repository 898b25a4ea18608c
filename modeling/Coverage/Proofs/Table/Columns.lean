import Coverage.Proofs.Table.Parts
import Coverage.Proofs.Text.Pieces

/-!
A rendered table as a rectangle. Header, rows and footer are each one line, in which the label
and the values stand padded to the widths of their columns, with two blanks before every value.
The widths are those of the whole table, so that all lines are equally long and a column is in
the same place on each of them. No text is longer than its column.
-/
namespace Coverage

namespace Text

/-- The text stands in the line, behind so many characters. -/
def StandsAt (line : String) (offset : Nat) (text : String) : Prop :=
  ∃ before after, line = before ++ text ++ after ∧ before.length = offset

theorem StandsAt.left {line a b : String} {offset : Nat} (h : StandsAt line offset (a ++ b)) :
    StandsAt line offset a := by
  obtain ⟨before, after, hline, hlength⟩ := h
  exact ⟨before, b ++ after, by rw [hline]; simp only [String.append_assoc], hlength⟩

theorem StandsAt.right {line a b : String} {offset : Nat} (h : StandsAt line offset (a ++ b)) :
    StandsAt line (offset + a.length) b := by
  obtain ⟨before, after, hline, hlength⟩ := h
  exact ⟨before ++ a, after, by rw [hline]; simp only [String.append_assoc],
    by rw [String.length_append, hlength]⟩

theorem length_join_blanks (texts : List String) :
    (String.join (texts.map ("  " ++ ·))).length = (texts.map (·.length + 2)).sum := by
  have hlength (text : String) : ("  " ++ text).length = text.length + 2 := by
    rw [String.length_append]
    exact Nat.add_comm 2 text.length
  rw [String.length_join, List.map_map]
  exact congrArg List.sum (List.map_congr_left fun text _ => hlength text)

/-- Behind the first text and the earlier ones stands a text with its two blanks. -/
theorem standsAt_join (first : String) {texts : List String} {i : Nat} {text : String}
    (h : texts[i]? = some text) :
    StandsAt (first ++ String.join (texts.map ("  " ++ ·)))
      (first.length + ((texts.take i).map (·.length + 2)).sum) ("  " ++ text) := by
  obtain ⟨hi, rfl⟩ := List.getElem?_eq_some_iff.1 h
  refine ⟨first ++ String.join ((texts.take i).map ("  " ++ ·)),
    String.join ((texts.drop (i + 1)).map ("  " ++ ·)), ?_, ?_⟩
  · have hsplit : texts = texts.take i ++ texts[i] :: texts.drop (i + 1) := by simp
    conv_lhs => rw [hsplit]
    rw [List.map_append, List.map_cons, String.join_append, String.join_cons]
    simp only [String.append_assoc]
  · rw [String.length_append, length_join_blanks]

end Text

namespace Table

open Text (StandsAt)

variable (t : Table)

/-- Where the two blanks before a value start. Values are counted from zero. -/
def gapStart (column : Nat) : Nat :=
  t.labelWidth + ((t.valueWidths.take column).map (· + 2)).sum

/-- No text is longer than its column is wide. -/
structure Fits (label : String) (values : List String) : Prop where
  count : values.length = t.valueWidths.length
  label_le : label.length ≤ t.labelWidth
  value_le : ∀ (column : Nat) (value : String) (width : Nat), values[column]? = some value →
    t.valueWidths[column]? = some width → value.length ≤ width

/-- The label and the values stand whole in the columns of the table. -/
structure InColumns (label : String) (values : List String) (line : String) : Prop
    extends t.Fits label values where
  length : line.length = t.labelWidth + (t.valueWidths.map (· + 2)).sum
  label_at : StandsAt line 0 (Text.padRight t.labelWidth label)
  blanks_at : ∀ column < t.valueWidths.length, StandsAt line (t.gapStart column) "  "
  value_at : ∀ (column : Nat) (value : String) (width : Nat), values[column]? = some value →
    t.valueWidths[column]? = some width →
    StandsAt line (t.gapStart column + 2) (Text.padLeft width value)

variable {t} {label : String} {values : List String}

section Fits

theorem le_widest {text : String} {texts : List String} (h : text ∈ texts) :
    text.length ≤ widest texts := by
  have hmem : text.length ∈ texts.map String.length := List.mem_map_of_mem h
  rw [widest, List.foldl_max]
  exact le_max_of_le_right (List.le_max?_getD_of_mem hmem)

theorem getElem?_valueWidths (column : Nat) :
    t.valueWidths[column]? = (t.headers.tail[column]?).map (t.valueWidth column) :=
  List.getElem?_mapIdx

theorem length_valueWidths : t.valueWidths.length = t.headers.tail.length :=
  List.length_mapIdx

theorem fits_header : t.Fits (t.headers.headD "") t.headers.tail where
  count := length_valueWidths.symm
  label_le := le_widest List.mem_cons_self
  value_le column value width hvalue hwidth := by
    rw [getElem?_valueWidths, hvalue] at hwidth
    obtain rfl := Option.some.inj hwidth
    exact le_widest List.mem_cons_self

theorem fits_row {row : Row} (hrow : row ∈ t.rows ++ [t.footer])
    (hcount : row.values.length = t.headers.tail.length) : t.Fits row.label row.values where
  count := hcount.trans length_valueWidths.symm
  label_le := by
    refine le_widest ?_
    have hlabel : row.label ∈ (t.rows ++ [t.footer]).map (·.label) := List.mem_map_of_mem hrow
    rw [List.map_append] at hlabel
    exact List.mem_cons_of_mem _ hlabel
  value_le column value width hvalue hwidth := by
    rw [getElem?_valueWidths, Option.map_eq_some_iff] at hwidth
    obtain ⟨header, -, rfl⟩ := hwidth
    refine le_widest (List.mem_cons_of_mem _ (List.mem_map.2 ⟨row, hrow, ?_⟩))
    rw [hvalue]
    rfl

end Fits

/-- The values of a line as they are padded. -/
def paddedValues (t : Table) (values : List String) : List String :=
  List.zipWith (fun value width => Text.padLeft width value) values t.valueWidths

theorem Fits.map_length_paddedValues (h : t.Fits label values) :
    (t.paddedValues values).map String.length = t.valueWidths := by
  refine List.ext_getElem (by simp [paddedValues, h.count]) fun i hi hwidth => ?_
  have hvalue : i < values.length := h.count.symm ▸ hwidth
  have hle := h.value_le i _ _ (List.getElem?_eq_getElem hvalue) (List.getElem?_eq_getElem hwidth)
  rw [List.getElem_map]
  simp only [paddedValues, List.getElem_zipWith]
  rw [Text.length_padLeft, Nat.max_eq_left hle]

/-- Every padded value stands behind its blanks, where the columns say. -/
theorem Fits.blanks_value_at (h : t.Fits label values) {column : Nat} {text : String}
    (htext : (t.paddedValues values)[column]? = some text) :
    StandsAt (Text.padRight t.labelWidth label ++
      String.join ((t.paddedValues values).map ("  " ++ ·))) (t.gapStart column) ("  " ++ text) := by
  have hgap : t.gapStart column = (Text.padRight t.labelWidth label).length +
      (((t.paddedValues values).take column).map (·.length + 2)).sum := by
    rw [Text.length_padRight, Nat.max_eq_left h.label_le, gapStart, ← h.map_length_paddedValues,
      ← List.map_take, List.map_map]
    rfl
  rw [hgap]
  exact Text.standsAt_join _ htext

/-- Whatever fits is put into the columns. -/
theorem Fits.inColumns (h : t.Fits label values) {cells : List (Role × String)}
    (hcells : cells.map (·.2) = t.paddedValues values) :
    t.InColumns label values (line .plain (Text.padRight t.labelWidth label) cells) := by
  have hline : line .plain (Text.padRight t.labelWidth label) cells =
      Text.padRight t.labelWidth label ++
        String.join ((t.paddedValues values).map ("  " ++ ·)) := by
    rw [line_eq, ← hcells, List.map_map]
    rfl
  have hwidths := h.map_length_paddedValues
  rw [hline]
  refine { h with length := ?_, label_at := ?_, blanks_at := ?_, value_at := ?_ }
  · rw [String.length_append, Text.length_padRight, Nat.max_eq_left h.label_le,
      Text.length_join_blanks, ← hwidths, List.map_map]
    rfl
  · exact ⟨"", String.join ((t.paddedValues values).map ("  " ++ ·)),
      by rw [String.empty_append], rfl⟩
  · intro column hcolumn
    rw [← hwidths, List.length_map] at hcolumn
    exact (h.blanks_value_at (List.getElem?_eq_getElem hcolumn)).left
  · intro column value width hvalue hwidth
    have hpadded : (t.paddedValues values)[column]? = some (Text.padLeft width value) := by
      rw [paddedValues, List.getElem?_zipWith, hvalue, hwidth]
    exact (h.blanks_value_at hpadded).right

theorem map_headerCells : t.headerCells.map (·.2) = t.paddedValues t.headers.tail := by
  refine List.ext_getElem (by simp [headerCells, paddedValues]) fun i _ _ => ?_
  simp [headerCells, paddedValues]

theorem map_rowCells (row : Row) : (t.rowCells row).map (·.2) = t.paddedValues row.values := by
  refine List.ext_getElem (by simp [rowCells, paddedValues]) fun i _ _ => ?_
  simp [rowCells, paddedValues]

theorem headerLine_plain (h : t.headers = standardHeaders) : t.headerLine .plain =
    line .plain (Text.padRight t.labelWidth (t.headers.headD "")) t.headerCells :=
  headerLine_eq h endsVisibly_total

theorem inColumns_header (h : t.headers = standardHeaders) :
    t.InColumns (t.headers.headD "") t.headers.tail (t.headerLine .plain) := by
  rw [headerLine_plain h]
  exact fits_header.inColumns map_headerCells

theorem inColumns_row {row : Row} (hrow : row ∈ t.rows ++ [t.footer])
    (hcount : row.values.length = t.headers.tail.length) :
    t.InColumns row.label row.values (t.rowLine .plain row) :=
  (fits_row hrow hcount).inColumns (map_rowCells row)

theorem lineWidth_eq : t.lineWidth = t.labelWidth + (t.valueWidths.map (· + 2)).sum := by
  rw [lineWidth, List.sum_eq_foldl]

section Lines

theorem newline_not_mem_line {first : String} {cells : List (Role × String)}
    (hfirst : '\n' ∉ first.toList) (hcells : ∀ cell ∈ cells, '\n' ∉ cell.2.toList) :
    '\n' ∉ (line .plain first cells).toList := by
  rw [line_eq]
  refine Text.not_mem_append hfirst ?_
  induction cells with
  | nil => simp
  | cons cell rest ih =>
      obtain ⟨hcell, hrest⟩ := List.forall_mem_cons.1 hcells
      rw [List.map_cons, String.join_cons]
      exact Text.not_mem_append (Text.not_mem_append (by decide) hcell) (ih hrest)

theorem newline_not_mem_rowLine {row : Row} (hlabel : '\n' ∉ row.label.toList)
    (hvalues : ∀ value ∈ row.values, '\n' ∉ value.toList) :
    '\n' ∉ (t.rowLine .plain row).toList :=
  newline_not_mem_line (Text.not_mem_padRight (by decide) hlabel _)
    (not_mem_rowCells (by decide) hvalues)

theorem newline_not_mem_headerLine (h : t.headers = standardHeaders) :
    '\n' ∉ (t.headerLine .plain).toList := by
  have hfirst : '\n' ∉ (t.headers.headD "").toList := by
    rw [h]
    decide
  have hrest : ∀ header ∈ t.headers.tail, '\n' ∉ header.toList := by
    rw [h]
    decide
  rw [headerLine_plain h]
  exact newline_not_mem_line (Text.not_mem_padRight (by decide) hfirst _)
    (not_mem_headerCells (by decide) hrest)

theorem newline_not_mem_separatorLine : '\n' ∉ (t.separatorLine .plain).toList :=
  Text.not_mem_replicate (by decide) t.lineWidth

end Lines

/-- A rendered table of files, line by line. -/
structure Rectangular (files : List (String × Snapshot)) (t : Table) : Prop where
  lines : splitLines t.render =
    [t.headerLine .plain, t.separatorLine .plain] ++
      files.map (fun f => t.rowLine .plain (.ofSnapshot f.1 f.2)) ++
      [t.separatorLine .plain, t.rowLine .plain t.footer, ""]
  columns : t.valueWidths.length = 6
  header : t.InColumns "File" ["Lines", "Missing", "Total", "Blocks", "Missing", "Total"]
    (t.headerLine .plain)
  rows : ∀ f ∈ files, t.InColumns (Row.shorten f.1) (Row.ofSnapshot f.1 f.2).values
    (t.rowLine .plain (.ofSnapshot f.1 f.2))
  footer : t.InColumns t.footer.label t.footer.values (t.rowLine .plain t.footer)
  separator : (t.separatorLine .plain).length = t.labelWidth + (t.valueWidths.map (· + 2)).sum

section Files

variable {files : List (String × Snapshot)}

theorem foreign_newline : Foreign '\n' :=
  ⟨rfl, by decide, by decide, by decide, by decide, by decide⟩

theorem splitLines_render (h : ∀ f ∈ files, '\n' ∉ f.1.toList) :
    splitLines (empty.pushAll files).render = (empty.pushAll files).lines .plain ++ [""] := by
  refine Text.splitOn_join fun line hline => ?_
  simp only [lines, pushAll_empty_rows, List.mem_append, List.mem_cons, List.mem_map,
    List.not_mem_nil, or_false] at hline
  rcases hline with ((rfl | rfl) | ⟨row, ⟨f, hf, rfl⟩, rfl⟩) | rfl | rfl
  · exact newline_not_mem_headerLine (pushAll_headers ..)
  · exact newline_not_mem_separatorLine
  · exact newline_not_mem_rowLine (Row.not_mem_shorten foreign_newline (h f hf))
      fun _ => Row.not_mem_of_mem_values foreign_newline
  · exact newline_not_mem_separatorLine
  · rw [pushAll_empty_footer]
    exact newline_not_mem_rowLine (Sums.not_mem_footer_label foreign_newline _ _)
      fun _ => Row.not_mem_of_mem_values foreign_newline

/-- Whatever the files are called and count, as long as no name is broken over lines. -/
theorem rectangular_pushAll (h : ∀ f ∈ files, '\n' ∉ f.1.toList) :
    Rectangular files (empty.pushAll files) := by
  have hheaders : (empty.pushAll files).headers = standardHeaders := pushAll_headers ..
  have hcount {row : Row} (hrow : row.values.length = 6) :
      row.values.length = (empty.pushAll files).headers.tail.length := by
    rw [hrow, hheaders]
    rfl
  constructor
  · rw [splitLines_render h, Table.lines, pushAll_empty_rows, List.map_map, List.append_assoc]
    rfl
  · rw [length_valueWidths, hheaders]
    rfl
  · have hheader := inColumns_header hheaders
    rwa [hheaders] at hheader
  · intro f hf
    have hrow : Row.ofSnapshot f.1 f.2 ∈ (empty.pushAll files).rows := by
      rw [pushAll_empty_rows]
      exact List.mem_map_of_mem hf
    exact inColumns_row (List.mem_append_left _ hrow) (hcount rfl)
  · have hfooter : (empty.pushAll files).footer.values.length = 6 := by
      rw [pushAll_empty_footer]
      rfl
    exact inColumns_row (List.mem_append_right _ (List.mem_singleton_self _)) (hcount hfooter)
  · rw [separatorLine, Style.plain, String.length_ofList, List.length_replicate, lineWidth_eq]

/-- A name that is cut, a name beyond the basic letters, and totals of several digits. -/
def wideFiles : List (String × Snapshot) :=
  [("vendor/packages/charting/components/legend/interactive/helpers/formatting.js",
      ⟨0.25, [], 3, 1, 4, .empty, "", ⟨0, 0, 0, 1.0⟩, ⟨2, 0, 2, 0.0⟩⟩),
    ("bücher/größe.js",
      ⟨1.0, [], 0, 123456789, 123456789, .empty, "", ⟨0, 0, 0, 1.0⟩, ⟨0, 0, 0, 1.0⟩⟩)]

theorem rectangular_wideFiles : (∀ f ∈ wideFiles, '\n' ∉ f.1.toList) ∧
    Rectangular wideFiles (empty.pushAll wideFiles) := by
  have h : ∀ f ∈ wideFiles, '\n' ∉ f.1.toList := by
    simp [wideFiles]
  exact ⟨h, rectangular_pushAll h⟩

end Files

end Table

end Coverage
