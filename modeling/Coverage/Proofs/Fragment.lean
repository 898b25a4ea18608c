import Coverage.Fragment
import Mathlib.Data.List.Forall2
import Mathlib.Data.Prod.Lex

/-!
What a span is cut into. A span of several lines has one fragment on each of them, and the
fragments tile it: of the characters of the text they hold those from the start of the span
up to its end, each once. The text may be shorter than the span; where it has no characters
there is nothing to hold.
-/
namespace Coverage

/-- The line is there and long enough. -/
def HasCharacter (lines : List String) (line column : Nat) : Prop :=
  line < lines.length ∧ column < lineLength lines line

def Fragment.Holds (f : Fragment) (line column : Nat) : Prop :=
  f.line = line ∧ f.start ≤ column ∧ column < f.stop

namespace Span

/-- Places are ordered by their lines and on one line by their columns. -/
def start (s : Span) : Nat ×ₗ Nat := toLex (s.startLine.toNat, s.startColumn.toNat)

def stop (s : Span) : Nat ×ₗ Nat := toLex (s.endLine.toNat, s.endColumn.toNat)

def Holds (s : Span) (line column : Nat) : Prop :=
  s.start ≤ toLex (line, column) ∧ toLex (line, column) < s.stop

variable {s : Span} {f : Fragment}

theorem isMultiLine_iff (s : Span) :
    s.isMultiLine = true ↔ s.startLine.toNat < s.endLine.toNat := by
  rw [isMultiLine, decide_eq_true_iff, UInt64.lt_iff_toNat_lt]

theorem holds_iff (s : Span) (line column : Nat) : s.Holds line column ↔
    (s.startLine.toNat < line ∨ s.startLine.toNat = line ∧ s.startColumn.toNat ≤ column) ∧
      (line < s.endLine.toNat ∨ line = s.endLine.toNat ∧ column < s.endColumn.toNat) := by
  rw [Holds, start, stop, Prod.Lex.toLex_le_toLex, Prod.Lex.toLex_lt_toLex]

theorem isMultiLine_of_mem_explode {lines : List String} (h : f ∈ s.explode lines) :
    s.isMultiLine = true := by
  rw [explode] at h
  split at h
  · assumption
  · cases h

theorem mem_explode_iff (h : s.isMultiLine = true) (lines : List String) :
    f ∈ s.explode lines ↔
      ∃ line, s.startLine.toNat ≤ line ∧ line ≤ s.endLine.toNat ∧ s.fragmentOn lines line = f := by
  have hlt := s.isMultiLine_iff.1 h
  have hrange (line : Nat) :
      line ∈ List.range' s.startLine.toNat (s.endLine.toNat - s.startLine.toNat + 1) ↔
        s.startLine.toNat ≤ line ∧ line ≤ s.endLine.toNat := by
    rw [List.mem_range'_1]
    omega
  rw [explode, if_pos h, List.mem_map]
  simp only [hrange, and_assoc]

/-- The span as it is, unless it has to be cut. -/
def fragments (s : Span) (lines : List String) : List Fragment :=
  if s.isMultiLine then s.explode lines
  else [⟨s.startLine.toNat, s.startColumn.toNat, s.endColumn.toNat⟩]

theorem exists_fragment_of_multiLine (h : s.isMultiLine = true) (lines : List String)
    (line : Nat) : (∃ f ∈ s.fragments lines, f.line = line) ↔
      s.startLine.toNat ≤ line ∧ line ≤ s.endLine.toNat := by
  rw [fragments, if_pos h]
  simp only [mem_explode_iff h]
  constructor
  · rintro ⟨f, ⟨l, hlow, hhigh, rfl⟩, rfl⟩
    exact ⟨hlow, hhigh⟩
  · rintro ⟨hlow, hhigh⟩
    exact ⟨s.fragmentOn lines line, ⟨line, hlow, hhigh, rfl⟩, rfl⟩

/-- The fragments of a span are on its first line and, where it is cut, on each
line below that it reaches. -/
theorem exists_fragment_iff (s : Span) (lines : List String) (line : Nat) :
    (∃ f ∈ s.fragments lines, f.line = line) ↔
      line = s.startLine.toNat ∨ s.startLine.toNat < line ∧ line ≤ s.endLine.toNat := by
  by_cases h : s.isMultiLine = true
  · have hlt := s.isMultiLine_iff.1 h
    rw [exists_fragment_of_multiLine h]
    omega
  · have hge : ¬ s.startLine.toNat < s.endLine.toNat := fun hlt => h (s.isMultiLine_iff.2 hlt)
    rw [fragments, if_neg h]
    simp only [List.mem_singleton, exists_eq_left]
    omega

/-- On a line of the span a character is in the fragment just if it is in the span. -/
theorem holds_fragmentOn_iff (h : s.isMultiLine = true) {lines : List String} {line column : Nat}
    (hlow : s.startLine.toNat ≤ line) (hhigh : line ≤ s.endLine.toNat)
    (hcolumn : column < lineLength lines line) :
    (s.fragmentOn lines line).Holds line column ↔ s.Holds line column := by
  have hlt := s.isMultiLine_iff.1 h
  rw [holds_iff]
  -- The first and the last line are different, so that at most one end comes from the span.
  by_cases hfirst : line = s.startLine.toNat
  · have hlast : line ≠ s.endLine.toNat := by omega
    simp only [Fragment.Holds, fragmentOn, if_pos hfirst, if_neg hlast, true_and]
    omega
  · by_cases hlast : line = s.endLine.toNat
    · simp only [Fragment.Holds, fragmentOn, if_neg hfirst, if_pos hlast, true_and]
      omega
    · simp only [Fragment.Holds, fragmentOn, if_neg hfirst, if_neg hlast, true_and]
      omega

theorem Holds.between {line column : Nat} (h : s.Holds line column) :
    s.startLine.toNat ≤ line ∧ line ≤ s.endLine.toNat := by
  obtain ⟨hstart, hstop⟩ := (holds_iff s line column).1 h
  omega

/-- One fragment a line, in ascending order; together they hold the characters of the span and
no two of them hold the same. -/
structure Tiled (s : Span) (lines : List String) (fragments : List Fragment) : Prop where
  onLines : fragments.map (·.line) =
    List.range' s.startLine.toNat (s.endLine.toNat - s.startLine.toNat + 1)
  holds : ∀ line column, HasCharacter lines line column →
    ((∃ f ∈ fragments, f.Holds line column) ↔ s.Holds line column)
  apart : fragments.Pairwise fun f g =>
    ∀ line column, ¬ (f.Holds line column ∧ g.Holds line column)

structure CutInto (s : Span) (lines : List String) (fragments : List Fragment) : Prop where
  several : s.startLine.toNat < s.endLine.toNat → s.Tiled lines fragments
  other : ¬ s.startLine.toNat < s.endLine.toNat → fragments = []

theorem tiled_explode (h : s.isMultiLine = true) (lines : List String) :
    s.Tiled lines (s.explode lines) where
  onLines := by
    have hline : (fun f : Fragment => f.line) ∘ s.fragmentOn lines = id := rfl
    rw [explode, if_pos h, List.map_map, hline, List.map_id]
  holds line column hcharacter := by
    simp only [mem_explode_iff h]
    constructor
    · rintro ⟨f, ⟨l, hlow, hhigh, rfl⟩, hholds⟩
      obtain rfl : l = line := hholds.1
      exact (holds_fragmentOn_iff h hlow hhigh hcharacter.2).1 hholds
    · intro hholds
      obtain ⟨hlow, hhigh⟩ := hholds.between
      exact ⟨s.fragmentOn lines line, ⟨line, hlow, hhigh, rfl⟩,
        (holds_fragmentOn_iff h hlow hhigh hcharacter.2).2 hholds⟩
  apart := by
    rw [explode, if_pos h, List.pairwise_map]
    refine (List.pairwise_lt_range' 1).imp fun {l k} hlt line column hboth => ?_
    have hl : l = line := hboth.1.1
    have hk : k = line := hboth.2.1
    omega

theorem cutInto_explode (s : Span) (lines : List String) : s.CutInto lines (s.explode lines) where
  several h := tiled_explode (s.isMultiLine_iff.2 h) lines
  other h := by
    rw [explode, if_neg fun hmulti => h (s.isMultiLine_iff.1 hmulti)]

end Span

/-- Node by node in their order, whatever the spans and the text. -/
theorem explodeAll_tiled (nodes : List Node) (lines : List String) :
    ∃ groups, explodeAll nodes lines = groups.flatten ∧
      List.Forall₂ (fun n fragments => n.span.CutInto lines fragments) nodes groups := by
  refine ⟨nodes.map fun n : Node => n.span.explode lines, List.flatMap_def, ?_⟩
  rw [List.forall₂_map_right_iff, List.forall₂_same]
  exact fun n _ => n.span.cutInto_explode lines

end Coverage
