import Coverage.Proofs.LineMap.Narrowest
import Coverage.Proofs.Snapshot.Consistency

/-!
Ranges that end before they start. The first fragment of a cut span starts where the manifest
says and ends where the line ends now, so it is turned round when the line has become shorter
than that. Nothing else turns a range round as long as the spans themselves run forward, and
such a fragment is always reported, as no other that starts in its column ends earlier.
-/
namespace Coverage

/-- The span reaches past its first line, and this line ends before the span starts. -/
structure Node.StartsBeyond (n : Node) (lines : List String) : Prop where
  multiLine : n.span.isMultiLine = true
  beyond : lineLength lines n.span.startLine.toNat < n.span.startColumn.toNat

namespace LineMap

variable {missing seen : List Node} {lines : List String}

theorem start_le_stop_of_single {n : Node} (hforward : n.span.start ≤ n.span.stop)
    (hline : n.span.endLine ≤ n.span.startLine) :
    n.span.startColumn.toNat ≤ n.span.endColumn.toNat := by
  rw [Span.start, Span.stop, Prod.Lex.toLex_le_toLex] at hforward
  rw [UInt64.le_iff_toNat_le] at hline
  omega

/-- A piece of forward spans is forward, unless it is the first of a span that starts beyond
its line. -/
theorem IsPiece.forward_or_beyond (hforward : ∀ n ∈ missing, n.span.start ≤ n.span.stop)
    {f : Fragment} (h : IsPiece missing lines f) :
    f.start ≤ f.stop ∨
      (∃ n ∈ missing, n.StartsBeyond lines ∧ n.span.startLine.toNat = f.line ∧
        n.span.startColumn.toNat = f.start) ∧ f.stop = lineLength lines f.line := by
  rcases h with ⟨n, hn, hline, rfl⟩ | hexploded
  · exact .inl (start_le_stop_of_single (hforward n hn) hline)
  · obtain ⟨n, hn, hf⟩ := List.mem_flatMap.1 hexploded
    have hmulti := Span.isMultiLine_of_mem_explode hf
    have hlt := n.span.isMultiLine_iff.1 hmulti
    obtain ⟨line, hlow, hhigh, rfl⟩ := (Span.mem_explode_iff hmulti lines).1 hf
    -- Only the first fragment takes its start from the span and its end from the text.
    by_cases hfirst : line = n.span.startLine.toNat
    · have hlast : line ≠ n.span.endLine.toNat := by omega
      have hstart : (n.span.fragmentOn lines line).start = n.span.startColumn.toNat :=
        if_pos hfirst
      have hstop : (n.span.fragmentOn lines line).stop = lineLength lines line := if_neg hlast
      rcases Nat.lt_or_ge (lineLength lines line) n.span.startColumn.toNat with hbeyond | hwithin
      · exact .inr ⟨⟨n, hn, ⟨hmulti, hfirst ▸ hbeyond⟩, hfirst.symm, hstart.symm⟩, hstop⟩
      · exact .inl (by rwa [hstart, hstop])
    · have hstart : (n.span.fragmentOn lines line).start = 0 := if_neg hfirst
      exact .inl (by rw [hstart]; exact Nat.zero_le _)

/-- The first fragment of a node that starts beyond its line. -/
theorem isPiece_of_startsBeyond {n : Node} (hn : n ∈ missing) (h : n.StartsBeyond lines) :
    IsPiece missing lines ⟨n.span.startLine.toNat, n.span.startColumn.toNat,
      lineLength lines n.span.startLine.toNat⟩ := by
  have hlt := n.span.isMultiLine_iff.1 h.multiLine
  refine .inr (List.mem_flatMap.2 ⟨n, hn, (Span.mem_explode_iff h.multiLine lines).2 ?_⟩)
  refine ⟨n.span.startLine.toNat, Nat.le_refl _, Nat.le_of_lt hlt, ?_⟩
  rw [Span.fragmentOn, if_pos rfl, if_neg (Nat.ne_of_lt hlt)]

theorem exists_entry_of_piece {f : Fragment} (h : IsPiece missing lines f) (seen : List Node) :
    ∃ e, (ofNodes missing seen lines).find? (f.line + 1) = some e := by
  obtain ⟨n, hn, hf⟩ := List.mem_flatMap.1 ((isPiece_iff f).1 h)
  exact (OrderedMap.mem_keys_iff _ _).1 ((mem_keys_ofNodes ..).2 ⟨n, hn, f, hf, rfl⟩)

section Entry

variable {line : Nat} {e : LineEntry} (he : Narrowest missing seen lines line e)
  (hforward : ∀ n ∈ missing, n.span.start ≤ n.span.stop)

include he hforward

theorem Narrowest.stop_lt_start_iff {range : ColumnRange} (hrange : range ∈ e.missing) :
    range.stop < range.start ↔ ∃ n ∈ missing, n.StartsBeyond lines ∧
      n.span.startLine.toNat = line ∧ n.span.startColumn.toNat = range.start := by
  constructor
  · intro hinverted
    rcases (he.attained range hrange).forward_or_beyond hforward with hle | ⟨hbeyond, -⟩
    · exact absurd hle (Nat.not_le.2 hinverted)
    · exact hbeyond
  · rintro ⟨n, hn, hbeyond, rfl, hstart⟩
    have hpiece := isPiece_of_startsBeyond hn hbeyond
    rw [hstart] at hpiece
    have hle := he.least range hrange _ hpiece
    exact Nat.lt_of_le_of_lt hle (hstart ▸ hbeyond.beyond)

/-- What is reported in the start column of such a node ends where the line ends. -/
theorem Narrowest.mem_missing_of_startsBeyond {n : Node} (hn : n ∈ missing)
    (hbeyond : n.StartsBeyond lines) (hline : n.span.startLine.toNat = line) :
    ⟨n.span.startColumn.toNat, lineLength lines line⟩ ∈ e.missing := by
  have hpiece := isPiece_of_startsBeyond hn hbeyond
  rw [hline] at hpiece
  obtain ⟨range, hrange, hstart⟩ := List.mem_map.1 ((he.starts _).2 ⟨_, hpiece⟩)
  have hinverted : range.stop < range.start :=
    (he.stop_lt_start_iff hforward hrange).2 ⟨n, hn, hbeyond, hline, hstart.symm⟩
  rcases (he.attained range hrange).forward_or_beyond hforward with hle | ⟨-, hstop⟩
  · exact absurd hle (Nat.not_le.2 hinverted)
  · have hstop : range.stop = lineLength lines line := hstop
    rwa [← hstart, ← hstop]

end Entry

end LineMap

namespace Snapshot

/-- Where ranges are turned round: in the start column of an unvisited node that starts beyond
its line, on this line, and nowhere else. -/
structure InvertedBeyond (m : Manifest) (r : Recorder) (lines : List String)
    (coverage : LineMap) : Prop where
  inverted_iff : ∀ entry ∈ coverage.entries, ∀ range ∈ entry.2.missing,
    (range.stop < range.start ↔ ∃ n, m.Unvisited r n ∧ n.StartsBeyond lines ∧
      n.span.startLine.toNat + 1 = entry.1 ∧ n.span.startColumn.toNat = range.start)
  reported : ∀ n, m.Unvisited r n → n.StartsBeyond lines →
    ∃ e, coverage.find? (n.span.startLine.toNat + 1) = some e ∧
      ⟨n.span.startColumn.toNat, lineLength lines n.span.startLine.toNat⟩ ∈ e.missing

theorem ofLines_invertedBeyond {m : Manifest}
    (hforward : ∀ n ∈ m.nodes, n.span.start ≤ n.span.stop) (r : Recorder) (lines : List String)
    (source : String) :
    InvertedBeyond m r lines (ofLines m r lines source).coverage := by
  have hmissing : ∀ n ∈ m.missing r, n.span.start ≤ n.span.stop := fun n hn =>
    hforward n ((m.mem_missing_iff r n).1 hn).1
  constructor
  · rintro ⟨lineno, e⟩ hentry range hrange
    have hfound : (ofLines m r lines source).coverage.find? lineno = some e :=
      (OrderedMap.find?_eq_some_iff _ _ _).2 hentry
    obtain ⟨-, -, line, rfl, -⟩ :=
      (mem_keys_coverage_iff lineno).1 ((OrderedMap.mem_keys_iff _ _).2 ⟨e, hfound⟩)
    rw [(LineMap.narrowest_of_find? hfound).stop_lt_start_iff hmissing hrange]
    simp only [m.mem_missing_iff, Nat.add_right_cancel_iff]
    rfl
  · intro n hn hbeyond
    have hn' := (m.mem_missing_iff r n).2 hn
    obtain ⟨e, he⟩ :=
      LineMap.exists_entry_of_piece (LineMap.isPiece_of_startsBeyond hn' hbeyond) (m.seen r)
    exact ⟨e, he,
      (LineMap.narrowest_of_find? he).mem_missing_of_startsBeyond hmissing hn' hbeyond rfl⟩

/-- A call over two lines, from column 12 of the first. -/
def shrunk : Manifest := ⟨[⟨0, ⟨0, 12, 1, 5⟩, none⟩], .indexed 0, by simp⟩

theorem forward_shrunk : ∀ n ∈ shrunk.nodes, n.span.start ≤ n.span.stop := by
  simp only [shrunk, List.mem_singleton, forall_eq]
  decide

/-- The text has become a single line of seven characters. -/
theorem ofLines_invertedBeyond_shrunk : (∀ n ∈ shrunk.nodes, n.span.start ≤ n.span.stop) ∧
    InvertedBeyond shrunk .empty ["done();"]
      (ofLines shrunk .empty ["done();"] "let total = sum(\n1, 2);").coverage :=
  ⟨forward_shrunk,
    ofLines_invertedBeyond forward_shrunk .empty ["done();"] "let total = sum(\n1, 2);"⟩

/-- The range that starts in column 12 ends in column 7. -/
theorem coverage_shrunk : (∀ n ∈ shrunk.nodes, n.span.start ≤ n.span.stop) ∧
    ∃ e, (ofLines shrunk .empty (splitLines "done();") "let total = sum(\n1, 2);").coverage.find?
      1 = some e ∧ e.missing = [⟨12, 7⟩] ∧ ∃ range ∈ e.missing, ¬ range.start ≤ range.stop := by
  refine ⟨forward_shrunk, ⟨false, "done();", [⟨12, 7⟩]⟩, ?_, rfl, ⟨12, 7⟩,
    List.mem_singleton_self _, by decide⟩
  change (LineMap.ofNodes (shrunk.missing .empty) (shrunk.seen .empty) (splitLines "done();")).find?
    1 = _
  rw [LineMap.ofNodes_of_sorted (by decide +kernel)]
  decide +kernel

end Snapshot

end Coverage
