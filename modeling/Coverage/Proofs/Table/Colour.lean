import Coverage.CommandLine
import Coverage.Proofs.FileTree
import Coverage.Proofs.Run.Files
import Coverage.Proofs.Table.Parts

/-!
Coloured tables without their colours. A terminal style puts colour codes around a cell or
leaves it as it is. No text of a table has an escape character but the names of the files, so
that removing the codes leaves the plain table.
-/
namespace Coverage

namespace Style

def isParameter (c : Char) : Bool := c.isDigit || c == ';'

/-- What stands behind the colour code that a text begins with: an escape character, a
bracket, the parameters and the letter m. -/
def afterCode? : List Char → Option (List Char)
  | '\x1b' :: '[' :: rest =>
      match rest.dropWhile isParameter with
      | 'm' :: after => some after
      | _ => none
  | _ => none

theorem length_afterCode? {text after : List Char} (h : afterCode? text = some after) :
    after.length < text.length := by
  unfold afterCode? at h
  split at h
  · rename_i rest
    have hle := (List.dropWhile_sublist isParameter (l := rest)).length_le
    split at h
    · rename_i hdrop
      cases h
      rw [hdrop] at hle
      simp only [List.length_cons] at hle ⊢
      omega
    · cases h
  · cases h

def dropCodes (text : List Char) : List Char :=
  match _hcode : afterCode? text with
  | some after => dropCodes after
  | none =>
      match text with
      | [] => []
      | c :: rest => c :: dropCodes rest
termination_by text.length
decreasing_by
  · exact length_afterCode? ‹_›
  · simp

/-- The text without its colour codes. -/
def uncoloured (text : String) : String := String.ofList (dropCodes text.toList)

/-- Colour codes and nothing else. -/
inductive AreCodes : List Char → Prop where
  | nil : AreCodes []
  | code {parameters rest : List Char} (h : ∀ c ∈ parameters, isParameter c = true)
      (hrest : AreCodes rest) : AreCodes ('\x1b' :: '[' :: (parameters ++ 'm' :: rest))

/-- The style puts codes around a text, or leaves it as it is. -/
def IsColouring (style : Style) : Prop :=
  ∀ role text, ∃ before after, AreCodes before.toList ∧ AreCodes after.toList ∧
    style role text = before ++ text ++ after

theorem dropCodes_nil : dropCodes [] = [] := by
  rw [dropCodes]
  rfl

theorem dropCodes_cons {c : Char} (h : c ≠ '\x1b') (rest : List Char) :
    dropCodes (c :: rest) = c :: dropCodes rest := by
  have hnone : afterCode? (c :: rest) = none := by
    unfold afterCode?
    split
    · rename_i heq
      exact absurd (List.cons.inj heq).1 h
    · rfl
  rw [dropCodes]
  split
  · rename_i hcode
    rw [hnone] at hcode
    cases hcode
  · rfl

theorem dropCodes_append {text : List Char} (h : '\x1b' ∉ text) (rest : List Char) :
    dropCodes (text ++ rest) = text ++ dropCodes rest := by
  induction text with
  | nil => rfl
  | cons c more ih =>
      rw [List.mem_cons, not_or] at h
      rw [List.cons_append, dropCodes_cons (Ne.symm h.1), ih h.2, List.cons_append]

theorem dropCodes_code {parameters : List Char} (h : ∀ c ∈ parameters, isParameter c = true)
    (rest : List Char) : dropCodes ('\x1b' :: '[' :: (parameters ++ 'm' :: rest)) = dropCodes rest := by
  have hcode : afterCode? ('\x1b' :: '[' :: (parameters ++ 'm' :: rest)) = some rest := by
    have hdrop : (parameters ++ 'm' :: rest).dropWhile isParameter = 'm' :: rest := by
      rw [List.dropWhile_append_of_pos h]
      rfl
    simp only [afterCode?, hdrop]
  rw [dropCodes]
  split
  · rename_i hafter
    rw [hcode] at hafter
    rw [Option.some.inj hafter]
  · rename_i hnone
    rw [hcode] at hnone
    cases hnone

theorem AreCodes.dropCodes_append {codes : List Char} (h : AreCodes codes) (rest : List Char) :
    dropCodes (codes ++ rest) = dropCodes rest := by
  induction h with
  | nil => rfl
  | code hparameters hrest ih =>
      rw [← ih]
      simpa using dropCodes_code hparameters _

theorem AreCodes.not_endsInBlank {codes : String} (h : AreCodes codes.toList) :
    ¬ Text.EndsInBlank codes := by
  have hlast : codes.toList = [] ∨ codes.toList.getLast? = some 'm' := by
    generalize codes.toList = l at h
    induction h with
    | nil => exact .inl rfl
    | code hparameters hrest ih =>
        right
        rw [← List.cons_append, ← List.cons_append, List.getLast?_append, List.getLast?_cons]
        rcases ih with rfl | hm
        · rfl
        · rw [hm]
          rfl
  intro hblank
  obtain ⟨c, hc, hblank⟩ := hblank
  rcases hlast with hnil | hm
  · rw [hnil] at hc
    cases hc
  · rw [hm] at hc
    cases hc
    revert hblank
    decide

end Style

/-- The text has no escape character. -/
abbrev Text.IsClear (text : String) : Prop := '\x1b' ∉ text.toList

namespace Style

variable {style : Style}

theorem IsColouring.dropCodes_append (h : style.IsColouring) {role : Role} {text : String}
    (htext : Text.IsClear text) (rest : List Char) :
    dropCodes ((style role text).toList ++ rest) = text.toList ++ dropCodes rest := by
  obtain ⟨before, after, hbefore, hafter, hstyled⟩ := h role text
  rw [hstyled, String.toList_append, String.toList_append, List.append_assoc, List.append_assoc,
    hbefore.dropCodes_append, Style.dropCodes_append htext, hafter.dropCodes_append]

theorem IsColouring.endsVisibly_header (h : style.IsColouring) (width : Nat) :
    Text.EndsVisibly (style .header (Text.padLeft width "Total")) := by
  obtain ⟨before, after, -, hafter, hstyled⟩ := h .header (Text.padLeft width "Total")
  rw [hstyled]
  exact ((Table.endsVisibly_total width).append _).append_of_not_endsInBlank hafter.not_endsInBlank

theorem isColouring_plain : plain.IsColouring := fun _ text =>
  ⟨"", "", .nil, .nil, by rw [String.empty_append, String.append_empty]; rfl⟩

theorem isParameter_of_code? {role : Role} {code : String} (h : code? role = some code) :
    ∀ c ∈ code.toList, isParameter c = true := by
  have hcode : code ∈ ["1", "2", "31", "32", "33"] := by
    cases role with
    | header | separator => cases h; decide
    | percentage share =>
        simp only [code?] at h
        split at h
        · cases h; decide
        · split at h <;> cases h <;> decide
    | label | value => cases h
  have hall : ∀ code ∈ ["1", "2", "31", "32", "33"], ∀ c ∈ code.toList, isParameter c = true := by
    simp [isParameter]
  exact hall code hcode

theorem areCodes_single (parameters : String)
    (h : ∀ c ∈ parameters.toList, isParameter c = true) :
    AreCodes ("\x1b[" ++ parameters ++ "m").toList := by
  simpa using AreCodes.code h .nil

theorem isColouring_coloured : coloured.IsColouring := by
  intro role text
  cases hcode : code? role with
  | none => exact ⟨"", "", .nil, .nil, by simp [coloured, hcode]⟩
  | some code =>
      refine ⟨_, "\x1b[0m", areCodes_single code (isParameter_of_code? hcode),
        areCodes_single "0" (by simp [isParameter]), ?_⟩
      simp [coloured, hcode, marked]

end Style

/-- An escape character can only come from the name of a file. -/
theorem foreign_escape : Table.Foreign '\x1b' :=
  ⟨rfl, by decide, by decide, by decide, by decide, by decide⟩

structure Row.IsClear (r : Row) : Prop where
  label : Text.IsClear r.label
  values : ∀ value ∈ r.values, Text.IsClear value

theorem Row.isClear_ofSnapshot {filename : String} (h : Text.IsClear filename) (s : Snapshot) :
    (ofSnapshot filename s).IsClear :=
  ⟨not_mem_shorten foreign_escape h, fun _ => not_mem_of_mem_values foreign_escape⟩

theorem Sums.isClear_footer (sums : Sums) (files : Nat) : (sums.footer files).IsClear :=
  ⟨not_mem_footer_label foreign_escape sums files,
    fun _ => Row.not_mem_of_mem_values foreign_escape⟩

namespace Table

variable {t : Table} {style : Style}

/-- Every text of the table is free of escape characters. -/
structure IsClear (t : Table) : Prop where
  headers : ∀ header ∈ t.headers, Text.IsClear header
  rows : ∀ row ∈ t.rows, row.IsClear
  footer : t.footer.IsClear

theorem isClear_lineParts {first : Role × String} {cells : List (Role × String)}
    (hfirst : Text.IsClear first.2) (hcells : ∀ cell ∈ cells, Text.IsClear cell.2) :
    ∀ p ∈ lineParts first cells, Text.IsClear p.text := by
  intro p hp
  simp only [lineParts, List.mem_append, List.mem_cons, List.mem_flatMap, List.not_mem_nil,
    or_false] at hp
  rcases hp with (rfl | ⟨cell, hcell, rfl | rfl⟩) | rfl
  · exact hfirst
  · decide
  · exact hcells cell hcell
  · decide

theorem IsClear.headerParts (h : t.IsClear) : ∀ p ∈ t.headerParts, Text.IsClear p.text := by
  refine isClear_lineParts (Text.not_mem_padRight (by decide) ?_ _)
    (not_mem_headerCells (by decide) fun header hheader =>
      h.headers header (List.mem_of_mem_tail hheader))
  cases hheaders : t.headers with
  | nil => decide
  | cons first rest => exact h.headers first (hheaders ▸ List.mem_cons_self)

theorem isClear_rowParts {row : Row} (h : row.IsClear) :
    ∀ p ∈ t.rowParts row, Text.IsClear p.text :=
  isClear_lineParts (Text.not_mem_padRight (by decide) h.label _)
    (not_mem_rowCells (by decide) h.values)

theorem IsClear.parts (h : t.IsClear) : ∀ p ∈ t.parts, Text.IsClear p.text := by
  have hseparator : ∀ p ∈ t.separatorParts, Text.IsClear p.text := by
    simp only [separatorParts, List.forall_mem_cons, List.not_mem_nil, false_implies, implies_true,
      and_true]
    exact ⟨Text.not_mem_replicate (by decide) _, by decide⟩
  intro p hp
  simp only [Table.parts, List.mem_append, List.mem_flatMap] at hp
  rcases hp with (((hp | hp) | ⟨row, hrow, hp⟩) | hp) | hp
  · exact h.headerParts p hp
  · exact hseparator p hp
  · exact isClear_rowParts (h.rows row hrow) p hp
  · exact hseparator p hp
  · exact isClear_rowParts h.footer p hp

theorem isClear_pushAll {files : List (String × Snapshot)}
    (h : ∀ f ∈ files, Text.IsClear f.1) : (empty.pushAll files).IsClear where
  headers := by
    rw [pushAll_headers]
    decide
  rows := by
    intro row hrow
    rw [pushAll_empty_rows] at hrow
    obtain ⟨f, hf, rfl⟩ := List.mem_map.1 hrow
    exact Row.isClear_ofSnapshot (h f hf) f.2
  footer := by
    rw [pushAll_empty_footer]
    exact Sums.isClear_footer _ _

/-- What is left of coloured parts are their texts. -/
theorem dropCodes_join (hstyle : style.IsColouring) {parts : List Part}
    (h : ∀ p ∈ parts, Text.IsClear p.text) :
    Style.dropCodes (String.join (parts.map (Part.styled style))).toList =
      (String.join (parts.map Part.text)).toList := by
  induction parts with
  | nil => exact Style.dropCodes_nil
  | cons p rest ih =>
      obtain ⟨hclear, hrest⟩ := List.forall_mem_cons.1 h
      simp only [List.map_cons, String.join_cons, String.toList_append]
      rw [← ih hrest]
      cases p with
      | cell role text => exact hstyle.dropCodes_append hclear _
      | gap text => exact Style.dropCodes_append hclear _

/-- Without its colours a table is rendered as in plain text. -/
theorem uncoloured_renderWith (hstyle : style.IsColouring) {files : List (String × Snapshot)}
    (h : ∀ f ∈ files, Text.IsClear f.1) :
    Style.uncoloured ((empty.pushAll files).renderWith style) = (empty.pushAll files).render := by
  have hheaders : (empty.pushAll files).headers = standardHeaders := pushAll_headers ..
  rw [renderWith_eq hheaders hstyle.endsVisibly_header, render_eq hheaders, Style.uncoloured,
    dropCodes_join hstyle (isClear_pushAll h).parts, String.ofList_toList]

end Table

theorem Report.addAll_table (t : Table) (files : List (String × Snapshot)) :
    (Report.table t).addAll files = .table (t.pushAll files) := by
  induction files generalizing t with
  | nil => rfl
  | cons f rest ih => exact ih (t.push f.1 f.2)

/-- Styling only adds marks: around the cells of any table, and as colours to the table of a
run, which without them is its plain report. -/
theorem Table.style_adds_marks :
    (∀ (files : List (String × Snapshot)) (pre post : Role → String),
      ¬ Text.EndsInBlank (post .header) →
      let t := Table.empty.pushAll files
      t.render = String.join (t.parts.map Part.text) ∧
        t.renderWith (.wrap pre post) = String.join (t.parts.map (Part.wrapped pre post))) ∧
    Style.plain.IsColouring ∧ Style.coloured.IsColouring ∧
    ∀ (r : Run) (w : Workspace) (o : Options) (style : Style), style.IsColouring →
      (∀ s ∈ r.list, Text.IsClear (s.filename.displayed o.base)) →
      (CommandLine.render w r { o with kind := .table } style).map Style.uncoloured =
        r.report w { o with kind := .table } := by
  refine ⟨?_, Style.isColouring_plain, Style.isColouring_coloured, ?_⟩
  · intro files pre post hpost t
    have hheaders : t.headers = standardHeaders := pushAll_headers ..
    exact ⟨render_eq hheaders, renderWith_wrap hheaders hpost⟩
  · intro r w o style hstyle hnames
    rw [CommandLine.render, Run.report_eq, Run.table_eq]
    cases hfiles : r.files w { o with kind := .table } with
    | error e => rfl
    | ok files =>
        have hclear : ∀ f ∈ files, Text.IsClear f.1 := by
          intro f hf
          obtain ⟨s, hs, hshown⟩ := Run.exists_session_of_mem_files hfiles hf
          exact hshown.1 ▸ hnames s hs
        simp only [Except.map, Table.uncoloured_renderWith hstyle hclear, Report.start,
          Report.addAll_table, Report.finish]

/-- A directory that holds one file. -/
def Workspace.single : Workspace where
  tree := FileTree.empty.add [Text.bytes "f.js"] (.file "f();".toByteArray)
  directory := []

theorem Workspace.single_readText : single.readText "f.js" = .ok "f();" := by
  have hresolve : single.resolve "f.js" = .ok [Text.bytes "f.js"] :=
    resolve_name rfl (by decide +kernel) (by decide +kernel) (by decide +kernel) ⟨_, rfl⟩
  exact readText_of_find? hresolve (by simp) rfl

/-- The run that holds the file's session. -/
def Run.single : Run := Run.empty.register (.start "f.js" ⟨[], .indexed 0, by decide⟩ "f();")

theorem Run.single_isReadable : ∀ s ∈ single.list, s.IsReadable .single := by
  intro s hs
  rw [List.mem_singleton.1 hs]
  exact ⟨_, Workspace.single_readText⟩

/-- Brackets stand around every cell of the empty table, and the table of one file loses its
colours again. -/
theorem Table.style_adds_marks_single :
    (¬ Text.EndsInBlank ">" ∧
      Table.empty.renderWith (.wrap (fun _ => "<") fun _ => ">") =
        String.join (Table.empty.parts.map (Part.wrapped (fun _ => "<") fun _ => ">"))) ∧
    Style.coloured.IsColouring ∧
      (∀ s ∈ Run.single.list, Text.IsClear (s.filename.displayed Options.standard.base)) ∧
      ∃ text, Run.single.report .single .standard = .ok text ∧
        (CommandLine.render .single .single .standard .coloured).map Style.uncoloured = .ok text := by
  have hend : ¬ Text.EndsInBlank ">" := by
    intro hends
    obtain ⟨c, hlast, hblank⟩ := hends
    cases hlast
    revert hblank
    decide
  have hclear : ∀ s ∈ Run.single.list,
      Text.IsClear (s.filename.displayed Options.standard.base) := by
    intro s hs
    rw [List.mem_singleton.1 hs]
    decide +kernel
  have hplain := Table.style_adds_marks.2.2.2 .single .single .standard .coloured
    Style.isColouring_coloured hclear
  obtain ⟨snapshots, hsnapshots⟩ := Run.exists_snapshots Run.single_isReadable
  have hreport : ∃ text, Run.single.report .single .standard = .ok text := by
    rw [Run.report_eq, Run.files_eq, hsnapshots]
    exact ⟨_, rfl⟩
  obtain ⟨text, htext⟩ := hreport
  exact ⟨⟨hend, (Table.style_adds_marks.1 [] (fun _ => "<") (fun _ => ">") hend).2⟩,
    Style.isColouring_coloured, hclear, text, htext, hplain.trans htext⟩

end Coverage
