import Coverage.Proofs.Snapshot

/-!
The parts of a snapshot against each other. The list of missing lines, the line
map and the totals are computed apart, the first from the start lines of the
missing nodes, the second from their fragments, the third from their number; they
agree wherever they speak of the same thing.
-/
namespace Coverage

/-- The nodes of the manifest that the recorder has not visited. -/
def Manifest.Unvisited (m : Manifest) (r : Recorder) (n : Node) : Prop :=
  n ∈ m.nodes ∧ r.hasVisited n.id = false

namespace Snapshot

variable {m : Manifest} {r : Recorder} {lines : List String} {source : String}

/-- What a snapshot of `lines` says of its parts. -/
structure Consistent (m : Manifest) (r : Recorder) (lines : List String) (s : Snapshot) :
    Prop where
  ascending : (s.lines.map (·.lineno)).Pairwise (· < ·)
  linenos : ∀ k, k ∈ s.lines.map (·.lineno) ↔ ∃ n, m.Unvisited r n ∧ k = n.span.startLine.toNat + 1
  missing : s.missing = s.lines.length
  missing_le : s.missing ≤ s.nodes.missing
  total : s.total = lines.length
  seen_of_le : s.missing ≤ s.total → s.seen + s.missing = s.total
  seen_of_lt : s.total < s.missing → s.seen = 0
  /-- A missing line is a line of the map, under the same text. -/
  covered : ∀ l ∈ s.lines, ∃ e, s.coverage.find? l.lineno = some e ∧ e.source = l.source
  /-- Any other line of the map continues a missing node that started above it. -/
  continued : ∀ k ∈ s.coverage.keys, k ∉ s.lines.map (·.lineno) →
    ∃ n, m.Unvisited r n ∧ n.span.isMultiLine = true ∧
      ∃ line, n.span.startLine.toNat < line ∧ line ≤ n.span.endLine.toNat ∧ k = line + 1
  nodes_split : s.nodes.seen + s.nodes.missing = s.nodes.total
  nodes_total : s.nodes.total = m.nodes.length
  lines_eq_nil : s.nodes.missing = 0 ↔ s.lines = []
  coverage_isEmpty : s.nodes.missing = 0 ↔ s.coverage.isEmpty = true

theorem linenos_ofLines (k : Nat) :
    k ∈ (ofLines m r lines source).lines.map (·.lineno) ↔
      ∃ n, m.Unvisited r n ∧ k = n.span.startLine.toNat + 1 := by
  change k ∈ startLinenos (m.missing r) lines ↔ _
  rw [mem_startLinenos_iff]
  constructor
  · intro hexists
    obtain ⟨n, hn, hline⟩ := hexists
    exact ⟨n, (m.mem_missing_iff r n).1 hn, hline.symm⟩
  · intro hexists
    obtain ⟨n, hn, hline⟩ := hexists
    exact ⟨n, (m.mem_missing_iff r n).2 hn, hline.symm⟩

/-- The lines of the map are those that some fragment of a missing node is on. -/
theorem mem_keys_coverage_iff (k : Nat) :
    k ∈ (ofLines m r lines source).coverage.keys ↔
      ∃ n, m.Unvisited r n ∧ ∃ line, k = line + 1 ∧
        (line = n.span.startLine.toNat ∨
          n.span.startLine.toNat < line ∧ line ≤ n.span.endLine.toNat) := by
  change k ∈ (LineMap.ofNodes (m.missing r) (m.seen r) lines).keys ↔ _
  rw [LineMap.mem_keys_ofNodes]
  constructor
  · intro hexists
    obtain ⟨n, hn, f, hf, hline⟩ := hexists
    exact ⟨n, (m.mem_missing_iff r n).1 hn, f.line, hline.symm,
      (n.span.exists_fragment_iff lines f.line).1 ⟨f, hf, rfl⟩⟩
  · intro hexists
    obtain ⟨n, hn, line, rfl, hline⟩ := hexists
    obtain ⟨f, hf, rfl⟩ := (n.span.exists_fragment_iff lines line).2 hline
    exact ⟨n, (m.mem_missing_iff r n).2 hn, f, hf, rfl⟩

theorem covered_ofLines {l : MissingLine} (h : l ∈ (ofLines m r lines source).lines) :
    ∃ e, (ofLines m r lines source).coverage.find? l.lineno = some e ∧ e.source = l.source := by
  have hlineno : l.lineno ∈ (ofLines m r lines source).lines.map (·.lineno) :=
    List.mem_map.2 ⟨l, h, rfl⟩
  have hkey : l.lineno ∈ (ofLines m r lines source).coverage.keys := by
    obtain ⟨n, hn, hline⟩ := (linenos_ofLines l.lineno).1 hlineno
    rw [mem_keys_coverage_iff]
    exact ⟨n, hn, n.span.startLine.toNat, hline, .inl rfl⟩
  obtain ⟨e, he⟩ := (OrderedMap.mem_keys_iff _ _).1 hkey
  refine ⟨e, he, ?_⟩
  rw [LineMap.source_of_find? he, source_of_mem_startLines h]

theorem continued_ofLines {k : Nat} (h : k ∈ (ofLines m r lines source).coverage.keys)
    (hother : k ∉ (ofLines m r lines source).lines.map (·.lineno)) :
    ∃ n, m.Unvisited r n ∧ n.span.isMultiLine = true ∧
      ∃ line, n.span.startLine.toNat < line ∧ line ≤ n.span.endLine.toNat ∧ k = line + 1 := by
  rw [mem_keys_coverage_iff] at h
  rw [linenos_ofLines] at hother
  obtain ⟨n, hn, line, rfl, hstart | ⟨hlt, hle⟩⟩ := h
  · exact absurd ⟨n, hn, by rw [hstart]⟩ hother
  · have hmulti : n.span.startLine.toNat < n.span.endLine.toNat := by omega
    exact ⟨n, hn, n.span.isMultiLine_iff.2 hmulti, line, hlt, hle, rfl⟩

/-- A list with an entry exactly when some node was not visited is empty exactly
when no node is missing. -/
theorem missing_eq_zero_iff_eq_nil {α : Type} {l : List α}
    (hsound : ∀ a ∈ l, ∃ n, m.Unvisited r n) (hcomplete : ∀ n, m.Unvisited r n → ∃ a, a ∈ l) :
    (m.nodeTotals r).missing = 0 ↔ l = [] := by
  rw [m.missing_nodeTotals, List.length_eq_zero_iff, List.eq_nil_iff_forall_not_mem,
    List.eq_nil_iff_forall_not_mem]
  constructor
  · intro hnone a ha
    obtain ⟨n, hn⟩ := hsound a ha
    exact hnone n ((m.mem_missing_iff r n).2 hn)
  · intro hempty n hn
    obtain ⟨a, ha⟩ := hcomplete n ((m.mem_missing_iff r n).1 hn)
    exact hempty a ha

/-- Every snapshot is consistent, whatever the manifest and the text of the file. -/
theorem consistent_ofLines (m : Manifest) (r : Recorder) (lines : List String) (source : String) :
    (ofLines m r lines source).Consistent m r lines where
  ascending := startLinenos_ascending (m.missing r) lines
  linenos := linenos_ofLines
  missing := rfl
  missing_le := by
    show (startLines (m.missing r) lines).length ≤ (m.nodeTotals r).missing
    rw [m.missing_nodeTotals]
    exact length_startLines_le (m.missing r) lines
  total := rfl
  seen_of_le h := Nat.sub_add_cancel h
  seen_of_lt h := Nat.sub_eq_zero_of_le (Nat.le_of_lt h)
  covered _ := covered_ofLines
  continued _ := continued_ofLines
  nodes_split := by
    show (m.nodeTotals r).seen + (m.nodeTotals r).missing = m.nodes.length
    rw [m.seen_nodeTotals, m.missing_nodeTotals]
    exact m.length_seen_add_length_missing r
  nodes_total := rfl
  lines_eq_nil := by
    rw [← List.map_eq_nil_iff (f := (·.lineno))]
    apply missing_eq_zero_iff_eq_nil
    · intro k hk
      obtain ⟨n, hn, -⟩ := (linenos_ofLines k).1 hk
      exact ⟨n, hn⟩
    · intro n hn
      exact ⟨_, (linenos_ofLines _).2 ⟨n, hn, rfl⟩⟩
  coverage_isEmpty := by
    rw [OrderedMap.isEmpty_iff_keys]
    apply missing_eq_zero_iff_eq_nil
    · intro k hk
      obtain ⟨n, hn, -⟩ := (mem_keys_coverage_iff k).1 hk
      exact ⟨n, hn⟩
    · intro n hn
      exact ⟨_, (mem_keys_coverage_iff _).2 ⟨n, hn, _, rfl, .inl rfl⟩⟩

end Snapshot

end Coverage
