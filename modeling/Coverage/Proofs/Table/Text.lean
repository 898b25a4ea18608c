import Coverage.Proofs.Json.Float
import Coverage.Table.Format
import Mathlib.Data.List.Forall2

/-!
A table that is written and read back. The sums behind the footer are lost and the headers
stay; rows and footer show the same text, and hold the same shares as far as the reading of
doubles keeps them.
-/
namespace Coverage

namespace Row

/-- Only finite shares have a numeral. -/
structure HasNumerals (r : Row) : Prop where
  lines : (Binary64.ofFloat r.lines).isFinite = true
  blocks : (Binary64.ofFloat r.blocks).isFinite = true

/-- The rows look the same, whatever shares they hold beside their text. -/
structure SameText (r s : Row) : Prop where
  label : r.label = s.label
  values : r.values = s.values

/-- How a row is related to the one that it was read back from: it shows the same text, and
the relation may tell more. -/
structure Keeps (read : Numeral.Reading) (same : Row → Row → Prop) : Prop where
  refl : ∀ r, same r r
  trans : ∀ {r s q}, same r s → same s q → same r q
  sameText : ∀ {r s}, same r s → r.SameText s
  reads : ∀ {r : Row}, r.HasNumerals → ∃ s, ofJson? read r.toJson = some s ∧ s.HasNumerals ∧ same s r

variable {read : Numeral.Reading} {r : Row} {x y : Float}

theorem ofJson?_toJson (hlines : (Json.ofFloat r.lines).float? read = some x)
    (hblocks : (Json.ofFloat r.blocks).float? read = some y) :
    ofJson? read r.toJson = some { r with lines := x, blocks := y } := by
  have hvalues : Json.list? Json.text? (.array (r.values.map Json.ofText)) = some r.values :=
    Json.list?_map Json.text?_ofText r.values
  have hfields : Json.fields? ["label", "values", "line_percentage", "block_percentage"] r.toJson =
      some [("label", .ofText r.label), ("values", .array (r.values.map Json.ofText)),
        ("line_percentage", .ofFloat r.lines), ("block_percentage", .ofFloat r.blocks)] :=
    Json.fields?_record (by simp) (by simp)
  rw [ofJson?, hfields]
  simp [hvalues, hlines, hblocks]

theorem keeps_sameText (h : read.Admits) : Keeps read SameText where
  refl _ := ⟨rfl, rfl⟩
  trans hrs hsq := ⟨hrs.label.trans hsq.label, hrs.values.trans hsq.values⟩
  sameText := id
  reads hr := by
    obtain ⟨x, hlines, hx⟩ := h _ hr.lines
    obtain ⟨y, hblocks, hy⟩ := h _ hr.blocks
    exact ⟨_, ofJson?_toJson hlines hblocks, ⟨hx, hy⟩, ⟨rfl, rfl⟩⟩

theorem keeps_eq (h : read.IsExact) : Keeps read Eq where
  refl _ := rfl
  trans := Eq.trans
  sameText heq := heq ▸ ⟨rfl, rfl⟩
  reads hr := ⟨_, ofJson?_toJson (h _ hr.lines) (h _ hr.blocks), hr, rfl⟩

theorem Keeps.forall₂_trans {same : Row → Row → Prop} (hkeeps : Keeps read same)
    {rows rows' rows'' : List Row} (h : List.Forall₂ same rows rows')
    (h' : List.Forall₂ same rows' rows'') : List.Forall₂ same rows rows'' := by
  induction h generalizing rows'' with
  | nil => exact h'
  | cons hhead _ ih =>
      obtain _ | ⟨hhead', htail'⟩ := h'
      exact .cons (hkeeps.trans hhead hhead') (ih htail')

theorem wellSpelled_toJson (r : Row) : r.toJson.WellSpelled := by
  refine Json.wellSpelled_record fun m hm => ?_
  simp only [List.mem_cons, List.not_mem_nil, or_false] at hm
  rcases hm with rfl | rfl | rfl | rfl
  · exact Json.wellSpelled_ofText r.label
  · exact Json.wellSpelled_texts r.values
  · exact Json.wellSpelled_ofFloat r.lines
  · exact Json.wellSpelled_ofFloat r.blocks

end Row

namespace Table

/-- The table without its sums. -/
def forget (t : Table) : Table := { t with sums := .zero }

structure HasNumerals (t : Table) : Prop where
  rows : ∀ r ∈ t.rows, r.HasNumerals
  footer : t.footer.HasNumerals

/-- The tables have the same headers and sums, and their rows are related one by one. -/
structure Alike (same : Row → Row → Prop) (t u : Table) : Prop where
  headers : t.headers = u.headers
  rows : List.Forall₂ same t.rows u.rows
  footer : same t.footer u.footer
  sums : t.sums = u.sums

theorem Alike.eq {t u : Table} (h : Alike Eq t u) : t = u := by
  obtain ⟨hheaders, hrows, hfooter, hsums⟩ := h
  rw [List.forall₂_eq_eq_eq] at hrows
  cases t
  cases u
  simp only [mk.injEq]
  exact ⟨hheaders, hrows, hfooter, hsums⟩

section Reload

variable {read : Numeral.Reading} {same : Row → Row → Prop} (hkeeps : Row.Keeps read same)

include hkeeps

theorem exists_rows {rows : List Row} (h : ∀ r ∈ rows, r.HasNumerals) :
    ∃ rows', (rows.map Row.toJson).mapM (Row.ofJson? read) = some rows' ∧
      (∀ r ∈ rows', r.HasNumerals) ∧ List.Forall₂ same rows' rows := by
  induction rows with
  | nil => exact ⟨[], rfl, nofun, .nil⟩
  | cons r rest ih =>
      obtain ⟨s, hs, hnumerals, hsame⟩ := hkeeps.reads (h r List.mem_cons_self)
      obtain ⟨rest', hrest, hrestNumerals, hrestSame⟩ :=
        ih fun q hq => h q (List.mem_cons_of_mem r hq)
      refine ⟨s :: rest', ?_, List.forall_mem_cons.2 ⟨hnumerals, hrestNumerals⟩,
        .cons hsame hrestSame⟩
      rw [List.map_cons, List.mapM_cons, hs, hrest]
      rfl

theorem exists_ofJson? {t : Table} (h : t.HasNumerals) :
    ∃ u, ofJson? read t.toJson = some u ∧ u.HasNumerals ∧ Alike same u t.forget := by
  obtain ⟨rows, hrows, hnumerals, hsame⟩ := exists_rows hkeeps h.rows
  obtain ⟨footer, hfooter, hfooterNumerals, hfooterSame⟩ := hkeeps.reads h.footer
  have hheaders : Json.list? Json.text? (.array (t.headers.map Json.ofText)) = some t.headers :=
    Json.list?_map Json.text?_ofText t.headers
  have hfields : Json.fields? ["headers", "rows", "footer"] t.toJson =
      some [("headers", .array (t.headers.map Json.ofText)),
        ("rows", .array (t.rows.map Row.toJson)), ("footer", t.footer.toJson)] :=
    Json.fields?_record (by simp) (by simp)
  have hitems : Json.list? (Row.ofJson? read) (.array (t.rows.map Row.toJson)) = some rows := hrows
  refine ⟨⟨t.headers, rows, footer, .zero⟩, ?_, ⟨hnumerals, hfooterNumerals⟩,
    ⟨rfl, hsame, hfooterSame, rfl⟩⟩
  rw [ofJson?, hfields]
  simp [hheaders, hitems, hfooter]

end Reload

theorem wellSpelled_toJson (t : Table) : t.toJson.WellSpelled := by
  refine Json.wellSpelled_record fun m hm => ?_
  simp only [List.mem_cons, List.not_mem_nil, or_false] at hm
  rcases hm with rfl | rfl | rfl
  · exact Json.wellSpelled_texts t.headers
  · refine Json.wellSpelled_array fun item hitem => ?_
    obtain ⟨r, -, rfl⟩ := List.mem_map.1 hitem
    exact r.wellSpelled_toJson
  · exact t.footer.wellSpelled_toJson

theorem exists_reload {read : Numeral.Reading} {same : Row → Row → Prop}
    (hkeeps : Row.Keeps read same) {t : Table} (h : t.HasNumerals) :
    ∃ u, t.reload read = some u ∧ u.HasNumerals ∧ Alike same u t.forget := by
  rw [reload, Json.ofText?_compact t.wellSpelled_toJson, Option.bind_some]
  exact exists_ofJson? hkeeps h

end Table

end Coverage
