import Coverage.Proofs.Table
import Coverage.Table.Layout
import Mathlib.Data.List.DropRight

/-!
A rendered table in its parts: the padded cells and separators, and what stands between them.
A style is put around the cells and changes nothing else. Only the header line could lose
characters, as it is trimmed behind its last cell. This one is padded in front, so nothing
is cut off as long as the style does not leave blanks behind it.
-/
namespace Coverage

/-- Fixed marks before and behind every cell of a role. -/
def Style.wrap (pre post : Role → String) : Style := fun role text => pre role ++ text ++ post role

namespace Text

def EndsInBlank (text : String) : Prop := ∃ c, text.toList.getLast? = some c ∧ isBlank c = true

/-- The last character can be seen. -/
def EndsVisibly (text : String) : Prop := ∃ c, text.toList.getLast? = some c ∧ isBlank c = false

theorem EndsVisibly.append {text : String} (h : EndsVisibly text) (before : String) :
    EndsVisibly (before ++ text) := by
  obtain ⟨c, hlast, hc⟩ := h
  exact ⟨c, by rw [String.toList_append, List.getLast?_append, hlast, Option.some_or], hc⟩

/-- What does not end in a blank leaves the end visible. -/
theorem EndsVisibly.append_of_not_endsInBlank {text after : String} (h : EndsVisibly text)
    (hafter : ¬ EndsInBlank after) : EndsVisibly (text ++ after) := by
  cases hlast : after.toList.getLast? with
  | none =>
      obtain ⟨c, htext, hc⟩ := h
      exact ⟨c, by rw [String.toList_append, List.getLast?_append, hlast, Option.none_or, htext], hc⟩
  | some c =>
      refine EndsVisibly.append ⟨c, hlast, ?_⟩ text
      by_contra hblank
      exact hafter ⟨c, hlast, Bool.not_eq_false _ ▸ hblank⟩

theorem trimRight_eq_self {text : String} (h : EndsVisibly text) : trimRight text = text := by
  obtain ⟨c, hlast, hc⟩ := h
  have hkept : text.toList.rdropWhile isBlank = text.toList := by
    refine List.rdropWhile_eq_self_iff.2 fun hne => ?_
    rw [List.getLast?_eq_some_getLast hne] at hlast
    rw [Option.some.inj hlast, hc]
    exact Bool.false_ne_true
  exact (congrArg String.ofList hkept).trans String.ofList_toList

end Text

namespace Table

inductive Part where
  | cell (role : Role) (text : String)
  | gap (text : String)

namespace Part

def text : Part → String
  | cell _ text => text
  | gap text => text

def styled (style : Style) : Part → String
  | cell role text => style role text
  | gap text => text

/-- The marks are put around a cell, and nothing around a gap. -/
def wrapped (pre post : Role → String) : Part → String
  | cell role text => pre role ++ text ++ post role
  | gap text => text

theorem styled_plain : styled .plain = text := by
  funext p
  cases p <;> rfl

theorem styled_wrap (pre post : Role → String) : styled (.wrap pre post) = wrapped pre post := by
  funext p
  cases p <;> rfl

end Part

/-- The cells of a line with two blanks between them and a line feed behind them. -/
def lineParts (first : Role × String) (cells : List (Role × String)) : List Part :=
  .cell first.1 first.2 :: cells.flatMap (fun c => [.gap "  ", .cell c.1 c.2]) ++ [.gap "\n"]

variable (t : Table) (style : Style)

def headerCells : List (Role × String) :=
  (t.headers.tail.zip t.valueWidths).map fun cell => (.header, Text.padLeft cell.2 cell.1)

def rowCells (row : Row) : List (Role × String) :=
  (row.values.zip t.valueWidths).mapIdx fun column cell =>
    (role row column, Text.padLeft cell.2 cell.1)

def headerParts : List Part :=
  lineParts (.header, Text.padRight t.labelWidth (t.headers.headD "")) t.headerCells

def separatorParts : List Part :=
  [.cell .separator (String.ofList (List.replicate t.lineWidth '-')), .gap "\n"]

def rowParts (row : Row) : List Part :=
  lineParts (.label, Text.padRight t.labelWidth row.label) (t.rowCells row)

def parts : List Part :=
  t.headerParts ++ t.separatorParts ++ t.rows.flatMap t.rowParts ++ t.separatorParts ++
    t.rowParts t.footer

section Absent

variable {t} {c : Char} (hc : c ≠ ' ')

include hc

/-- Padding puts nothing but blanks into a cell. -/
theorem not_mem_headerCells (h : ∀ header ∈ t.headers.tail, c ∉ header.toList) :
    ∀ cell ∈ t.headerCells, c ∉ cell.2.toList := by
  intro cell hcell
  obtain ⟨padded, hpadded, rfl⟩ := List.mem_map.1 hcell
  exact Text.not_mem_padLeft hc (h padded.1 (List.of_mem_zip hpadded).1) padded.2

theorem not_mem_rowCells {row : Row} (h : ∀ value ∈ row.values, c ∉ value.toList) :
    ∀ cell ∈ t.rowCells row, c ∉ cell.2.toList := by
  intro cell hcell
  obtain ⟨i, hi, rfl⟩ := List.mem_mapIdx.1 hcell
  exact Text.not_mem_padLeft hc (h _ (List.of_mem_zip (List.getElem_mem hi)).1) _

end Absent

theorem line_eq (first : String) (cells : List (Role × String)) :
    line style first cells = first ++ String.join (cells.map fun c => "  " ++ style c.1 c.2) := by
  rw [line]
  induction cells generalizing first with
  | nil => simp
  | cons c rest ih =>
      rw [List.foldl_cons, ih, List.map_cons, String.join_cons, String.append_assoc,
        String.append_assoc, String.append_assoc]

theorem join_lineParts (first : Role × String) (cells : List (Role × String)) :
    String.join ((lineParts first cells).map (Part.styled style)) =
      line style (style first.1 first.2) cells ++ "\n" := by
  have hcells : String.join ((cells.flatMap fun c => [Part.gap "  ", .cell c.1 c.2]).map
      (Part.styled style)) = String.join (cells.map fun c => "  " ++ style c.1 c.2) := by
    induction cells with
    | nil => rfl
    | cons c rest ih => simp [ih, Part.styled, String.append_assoc]
  rw [line_eq, lineParts, List.map_append, List.map_cons, String.join_append, String.join_cons,
    hcells]
  simp [Part.styled]

theorem join_separatorParts :
    String.join (t.separatorParts.map (Part.styled style)) = t.separatorLine style ++ "\n" := by
  simp [separatorParts, separatorLine, Part.styled]

theorem join_rowParts (row : Row) :
    String.join ((t.rowParts row).map (Part.styled style)) = t.rowLine style row ++ "\n" :=
  join_lineParts style _ _

theorem join_flatMap_rowParts (rows : List Row) :
    String.join ((rows.flatMap t.rowParts).map (Part.styled style)) =
      String.join (rows.map fun row => t.rowLine style row ++ "\n") := by
  induction rows with
  | nil => rfl
  | cons row rest ih =>
      rw [List.flatMap_cons, List.map_append, String.join_append, join_rowParts, ih, List.map_cons,
        String.join_cons]

variable {t style}

theorem headerCells_eq (h : t.headers = standardHeaders) :
    ∃ before, t.headerCells = before ++ [(.header, Text.padLeft (t.valueWidth 5 "Total") "Total")] := by
  rw [← List.getLast?_eq_some_iff, headerCells, valueWidths, h]
  rfl

/-- Nothing is trimmed behind the last header. -/
theorem headerLine_eq (h : t.headers = standardHeaders)
    (hend : ∀ width, Text.EndsVisibly (style .header (Text.padLeft width "Total"))) :
    t.headerLine style = line style
      (style .header (Text.padRight t.labelWidth (t.headers.headD ""))) t.headerCells := by
  refine Text.trimRight_eq_self ?_
  change Text.EndsVisibly (line style _ t.headerCells)
  obtain ⟨before, hcells⟩ := headerCells_eq h
  rw [hcells, line_eq, List.map_append, String.join_append, ← String.append_assoc]
  refine Text.EndsVisibly.append ?_ _
  rw [List.map_singleton, String.join_cons, String.join_nil, String.append_empty]
  exact (hend _).append "  "

theorem join_headerParts (h : t.headers = standardHeaders)
    (hend : ∀ width, Text.EndsVisibly (style .header (Text.padLeft width "Total"))) :
    String.join (t.headerParts.map (Part.styled style)) = t.headerLine style ++ "\n" := by
  rw [headerParts, join_lineParts, headerLine_eq h hend]

theorem renderWith_eq (h : t.headers = standardHeaders)
    (hend : ∀ width, Text.EndsVisibly (style .header (Text.padLeft width "Total"))) :
    t.renderWith style = String.join (t.parts.map (Part.styled style)) := by
  rw [parts]
  simp only [List.map_append, String.join_append]
  rw [join_headerParts h hend, join_separatorParts, join_flatMap_rowParts, join_rowParts,
    renderWith, lines]
  simp [List.map_map, Function.comp_def, String.append_assoc]

theorem endsVisibly_total (width : Nat) : Text.EndsVisibly (Text.padLeft width "Total") :=
  Text.EndsVisibly.append ⟨'l', rfl, rfl⟩ _

theorem render_eq (h : t.headers = standardHeaders) :
    t.render = String.join (t.parts.map Part.text) := by
  have hplain : t.renderWith .plain = String.join (t.parts.map (Part.styled .plain)) :=
    renderWith_eq h endsVisibly_total
  rwa [Part.styled_plain] at hplain

/-- Marks that are not trimmed are put around the cells, and nothing else changes. -/
theorem renderWith_wrap {pre post : Role → String} (h : t.headers = standardHeaders)
    (hpost : ¬ Text.EndsInBlank (post .header)) :
    t.renderWith (.wrap pre post) = String.join (t.parts.map (Part.wrapped pre post)) := by
  rw [renderWith_eq h, Part.styled_wrap]
  intro width
  exact ((endsVisibly_total width).append _).append_of_not_endsInBlank hpost

end Table

end Coverage
