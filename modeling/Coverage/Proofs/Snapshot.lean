import Coverage.Proofs.LineMap
import Coverage.Proofs.Reach
import Coverage.Snapshot

/-!
The lines of a snapshot. They ascend, and they are the lines on which missing
nodes start, with their text. A snapshot follows from what was reached, so
recorders that have reached the same give the same snapshot.
-/
namespace Coverage

/-- The text of the line of that number, counted from one. -/
abbrev lineText (lines : List String) (lineno : Nat) : String := (lines[lineno - 1]?).getD ""

/-- The lines on which the nodes start, counted from zero, as `startLines` goes through them. -/
abbrev sortedStarts (nodes : List Node) : List Nat :=
  (nodes.mergeSort fun n k => n.span.startLine ≤ k.span.startLine).map (·.span.startLine.toNat)

/-- The numbers of the lines on which the nodes start. -/
abbrev startLinenos (nodes : List Node) (lines : List String) : List Nat :=
  (startLines nodes lines).map (·.lineno)

theorem startLinenos_eq (nodes : List Node) (lines : List String) :
    startLinenos nodes lines = (sortedStarts nodes).eraseDups.map (· + 1) := by
  rw [startLinenos, startLines, List.map_map]
  rfl

theorem sortedStarts_pairwise (nodes : List Node) : (sortedStarts nodes).Pairwise (· ≤ ·) := by
  refine List.pairwise_map.2 (List.Pairwise.imp ?_ (List.pairwise_mergeSort ?_ ?_ nodes))
  · intro n k h
    exact UInt64.le_iff_toNat_le.1 (of_decide_eq_true h)
  · intro n k j hnk hkj
    rw [decide_eq_true_iff] at hnk hkj ⊢
    exact UInt64.le_trans hnk hkj
  · intro n k
    rw [Bool.or_eq_true, decide_eq_true_iff, decide_eq_true_iff]
    exact UInt64.le_total _ _

theorem startLinenos_ascending (nodes : List Node) (lines : List String) :
    (startLinenos nodes lines).Pairwise (· < ·) := by
  have hsorted : (sortedStarts nodes).eraseDups.Pairwise (· ≤ ·) :=
    (sortedStarts_pairwise nodes).sublist (eraseDups_sublist _)
  have hnodup : (sortedStarts nodes).eraseDups.Nodup := nodup_eraseDups _
  rw [startLinenos_eq, List.pairwise_map]
  refine (hsorted.and hnodup).imp ?_
  intro line line' hand
  exact Nat.add_lt_add_right (Nat.lt_of_le_of_ne hand.1 hand.2) 1

theorem mem_startLinenos_iff (nodes : List Node) (lines : List String) (lineno : Nat) :
    lineno ∈ startLinenos nodes lines ↔ ∃ n ∈ nodes, n.span.startLine.toNat + 1 = lineno := by
  simp only [startLinenos_eq, List.mem_map, List.mem_eraseDups, List.mem_mergeSort]
  simp only [exists_exists_and_eq_and]

theorem source_of_mem_startLines {nodes : List Node} {lines : List String} {l : MissingLine}
    (h : l ∈ startLines nodes lines) : l.source = lineText lines l.lineno := by
  obtain ⟨line, -, rfl⟩ := List.mem_map.1 h
  rfl

theorem startLinenos_nodup (nodes : List Node) (lines : List String) :
    (startLinenos nodes lines).Nodup :=
  (startLinenos_ascending nodes lines).imp Nat.ne_of_lt

/-- The order of the nodes does not show, nor which of those on one line came first. -/
theorem startLines_congr {nodes nodes' : List Node} (h : ∀ n, n ∈ nodes ↔ n ∈ nodes')
    (lines : List String) : startLines nodes lines = startLines nodes' lines := by
  have hshown (nodes : List Node) : startLines nodes lines =
      (startLinenos nodes lines).map fun lineno => ⟨lineno, lineText lines lineno⟩ := by
    rw [startLinenos, List.map_map]
    refine (List.map_id _).symm.trans (List.map_congr_left fun l hl => ?_)
    rw [id, Function.comp_apply, ← source_of_mem_startLines hl]
  have hlinenos : startLinenos nodes lines = startLinenos nodes' lines := by
    have hperm : (startLinenos nodes lines).Perm (startLinenos nodes' lines) := by
      rw [List.perm_ext_iff_of_nodup]
      · intro lineno
        rw [mem_startLinenos_iff, mem_startLinenos_iff]
        simp only [h]
      · exact startLinenos_nodup nodes lines
      · exact startLinenos_nodup nodes' lines
    exact hperm.eq_of_pairwise (fun _ _ _ _ hlt hgt => absurd hlt (Nat.lt_asymm hgt))
      (startLinenos_ascending nodes lines) (startLinenos_ascending nodes' lines)
  rw [hshown nodes, hshown nodes', hlinenos]

theorem startLinenos_subset {nodes nodes' : List Node} (h : nodes' ⊆ nodes) (lines : List String) :
    startLinenos nodes' lines ⊆ startLinenos nodes lines := by
  intro lineno hlineno
  rw [mem_startLinenos_iff] at hlineno ⊢
  obtain ⟨n, hn, hstart⟩ := hlineno
  exact ⟨n, h hn, hstart⟩

theorem length_startLines_mono {nodes nodes' : List Node} (h : nodes' ⊆ nodes)
    (lines : List String) :
    (startLines nodes' lines).length ≤ (startLines nodes lines).length := by
  have hsub := (startLinenos_nodup nodes' lines).subperm (startLinenos_subset h lines)
  simpa using hsub.length_le

/-- No more lines are missing than nodes. -/
theorem length_startLines_le (nodes : List Node) (lines : List String) :
    (startLines nodes lines).length ≤ nodes.length := by
  have hsubset : startLinenos nodes lines ⊆ nodes.map (·.span.startLine.toNat + 1) := by
    intro lineno hlineno
    exact List.mem_map.2 ((mem_startLinenos_iff nodes lines lineno).1 hlineno)
  simpa using ((startLinenos_nodup nodes lines).subperm hsubset).length_le

theorem Snapshot.ofLines_of_sameReach {m : Manifest} {r s : Recorder} (h : m.SameReach r s)
    (lines : List String) (source : String) :
    Snapshot.ofLines m r lines source = Snapshot.ofLines m s lines source := by
  rw [ofLines, ofLines, h.missing, h.seen, h.nodeTotals, h.blockTotals]

end Coverage
