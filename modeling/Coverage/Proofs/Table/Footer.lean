import Coverage.Proofs.Table

/-!
The footer of a table against its rows. What is counted in a column of the footer is the sum of
the numbers that can be read in the column above it. The percentages are those of what was seen
file by file, which the cells do not show: a file that has become shorter may miss more lines
than it has. None of this depends on the order of the files.
-/
namespace Coverage

/-- The number that is written as it is, without sign, fraction and exponent. -/
def Numeral.toNat? (n : Numeral) : Option Nat :=
  if n.isWhole && !n.negative then some n.digits else none

namespace Row

/-- The number that stands in a cell. -/
def number? (row : Row) (column : Nat) : Option Nat := do
  let cell ← row.values[column]?
  let numeral ← Numeral.read cell.toList
  numeral.toNat?

theorem number?_of_toString {row : Row} {column n : Nat}
    (h : row.values[column]? = some (toString n)) : row.number? column = some n := by
  have hread : Numeral.read (toString n).toList = some ⟨false, n, 0, true⟩ := by
    rw [Nat.toString_eq_ofList_toDigits, String.toList_ofList, Numeral.read_toDigits]
  rw [number?, h]
  simp only [Option.bind_eq_bind, Option.bind_some, hread]
  rfl

end Row

namespace Sums

variable {files other : List (String × Snapshot)}

theorem addAll_perm (sums : Sums) (h : files.Perm other) :
    sums.addAll files = sums.addAll other := by
  have hpart (part : String × Snapshot → Nat) : (files.map part).sum = (other.map part).sum :=
    (h.map part).sum_eq
  simp only [addAll_eq, hpart]

end Sums

namespace Table

/-- The columns that count something, with what they count. -/
def countColumns : List (Nat × (Snapshot → Nat)) :=
  [(1, (·.missing)), (2, (·.total)), (4, (·.blocks.missing)), (5, (·.blocks.total))]

/-- A row for each file, and below them what they come to. -/
structure Totalled (files : List (String × Snapshot)) (t : Table) : Prop where
  rows : t.rows = files.map fun f => .ofSnapshot f.1 f.2
  label : t.footer.label = "Total (" ++ toString t.rows.length ++ " files)"
  counts : ∀ c ∈ countColumns,
    t.rows.mapM (·.number? c.1) = some (files.map fun f => c.2 f.2) ∧
      t.footer.number? c.1 = some (files.map fun f => c.2 f.2).sum
  lines : t.footer.lines = ratio (files.map (·.2.seen)).sum (files.map (·.2.total)).sum
  blocks : t.footer.blocks =
    ratio (files.map (·.2.blocks.seen)).sum (files.map (·.2.blocks.total)).sum
  shares : t.footer.values[0]? = some (percentText t.footer.lines) ∧
    t.footer.values[3]? = some (percentText t.footer.blocks)

theorem number?_ofSnapshot {c : Nat × (Snapshot → Nat)} (hc : c ∈ countColumns)
    (filename : String) (s : Snapshot) : (Row.ofSnapshot filename s).number? c.1 = some (c.2 s) := by
  simp only [countColumns, List.mem_cons, List.not_mem_nil, or_false] at hc
  rcases hc with rfl | rfl | rfl | rfl <;> exact Row.number?_of_toString rfl

variable (files : List (String × Snapshot))

theorem number?_footer {c : Nat × (Snapshot → Nat)} (hc : c ∈ countColumns) (count : Nat) :
    ((Sums.zero.addAll files).footer count).number? c.1 =
      some (files.map fun f => c.2 f.2).sum := by
  rw [Sums.addAll_eq]
  simp only [Sums.zero, Nat.zero_add]
  simp only [countColumns, List.mem_cons, List.not_mem_nil, or_false] at hc
  rcases hc with rfl | rfl | rfl | rfl <;> exact Row.number?_of_toString rfl

theorem mapM_number? {c : Nat × (Snapshot → Nat)} (hc : c ∈ countColumns) :
    (files.map fun f => Row.ofSnapshot f.1 f.2).mapM (·.number? c.1) =
      some (files.map fun f => c.2 f.2) := by
  rw [List.mapM_map]
  simp only [Function.comp_def, number?_ofSnapshot hc]
  exact List.mapM_pure

theorem totalled_pushAll : Totalled files (empty.pushAll files) where
  rows := pushAll_empty_rows files
  label := by
    rw [pushAll_empty_footer, pushAll_empty_rows, List.length_map]
    rfl
  counts c hc := by
    rw [pushAll_empty_footer, pushAll_empty_rows]
    exact ⟨mapM_number? files hc, number?_footer files hc _⟩
  lines := by
    rw [pushAll_empty_footer, Sums.addAll_eq]
    simp only [Sums.zero, Nat.zero_add]
    rfl
  blocks := by
    rw [pushAll_empty_footer, Sums.addAll_eq]
    simp only [Sums.zero, Nat.zero_add]
    rfl
  shares := by
    rw [pushAll_empty_footer]
    exact ⟨rfl, rfl⟩

/-- Every run of pushes ends with a footer over its rows, the same for any order. -/
theorem footer_totals : Totalled files (empty.pushAll files) ∧
    ∀ other : List (String × Snapshot), other.Perm files →
      (empty.pushAll other).footer = (empty.pushAll files).footer := by
  refine ⟨totalled_pushAll files, fun other h => ?_⟩
  rw [pushAll_empty_footer, pushAll_empty_footer, Sums.addAll_perm .zero h, h.length_eq]

end Table

end Coverage
