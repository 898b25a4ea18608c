import Coverage.Proofs.LineMap

/-!
The line map against the pieces of the missing nodes. A node on one line is one piece, also
when its end lies before its start; any other is cut into one piece a line. The map has the
lines of the pieces, and under each line the start columns there, in order and each once,
with the smallest end.
-/
namespace Coverage.LineMap

variable {missing seen : List Node} {lines : List String}

/-- A missing node that does not reach past its first line, or what a longer one is cut into. -/
def IsPiece (missing : List Node) (lines : List String) (f : Fragment) : Prop :=
  (∃ n ∈ missing, n.span.endLine ≤ n.span.startLine ∧
    f = ⟨n.span.startLine.toNat, n.span.startColumn.toNat, n.span.endColumn.toNat⟩) ∨
  f ∈ explodeAll missing lines

/-- The entry of one line, counted from zero, by the pieces on it. -/
structure Narrowest (missing seen : List Node) (lines : List String) (line : Nat)
    (e : LineEntry) : Prop where
  ascending : e.missing.Pairwise fun r s => r.start < s.start
  starts : ∀ start, start ∈ e.missing.map (·.start) ↔
    ∃ stop, IsPiece missing lines ⟨line, start, stop⟩
  attained : ∀ r ∈ e.missing, IsPiece missing lines ⟨line, r.start, r.stop⟩
  least : ∀ r ∈ e.missing, ∀ stop, IsPiece missing lines ⟨line, r.start, stop⟩ → r.stop ≤ stop
  mixed : e.mixed = true ↔ ∃ n ∈ seen, n.span.startLine.toNat = line
  source : e.source = (lines[line]?).getD ""

/-- The map has an entry for each line with a piece, and this entry is the narrowest. -/
structure Gathers (missing seen : List Node) (lines : List String) (m : LineMap) : Prop where
  keys : ∀ lineno, lineno ∈ m.keys ↔
    ∃ line start stop, IsPiece missing lines ⟨line, start, stop⟩ ∧ lineno = line + 1
  entries : ∀ line e, m.find? (line + 1) = some e → Narrowest missing seen lines line e

theorem isPiece_iff (f : Fragment) : IsPiece missing lines f ↔ f ∈ fragmentsOf missing lines := by
  have hshort (s : Span) : s.endLine ≤ s.startLine ↔ ¬ s.isMultiLine = true := by
    rw [Span.isMultiLine_iff, UInt64.le_iff_toNat_le, Nat.not_lt]
  rw [IsPiece, explodeAll, List.mem_flatMap, List.mem_flatMap]
  constructor
  · rintro (⟨n, hn, hline, rfl⟩ | ⟨n, hn, hf⟩)
    · refine ⟨n, hn, ?_⟩
      rw [Span.fragments, if_neg ((hshort _).1 hline)]
      exact List.mem_singleton_self _
    · refine ⟨n, hn, ?_⟩
      rwa [Span.fragments, if_pos (Span.isMultiLine_of_mem_explode hf)]
  · rintro ⟨n, hn, hf⟩
    rw [Span.fragments] at hf
    split at hf
    · exact .inr ⟨n, hn, hf⟩
    · rename_i hline
      exact .inl ⟨n, hn, (hshort _).2 hline, List.mem_singleton.1 hf⟩

theorem narrowest_of_find? {line : Nat} {e : LineEntry}
    (h : (ofNodes missing seen lines).find? (line + 1) = some e) :
    Narrowest missing seen lines line e := by
  have hspec := entrySpec_ofNodes h
  refine ⟨hspec.ascending, fun start => ⟨?_, ?_⟩, ?_, ?_, ?_, hspec.source⟩
  · intro hstart
    obtain ⟨r, hr, rfl⟩ := List.mem_map.1 hstart
    exact ⟨r.stop, (isPiece_iff _).2 (hspec.attained r hr)⟩
  · rintro ⟨stop, hpiece⟩
    obtain ⟨r, hr, rfl⟩ := hspec.starts start stop ((isPiece_iff _).1 hpiece)
    exact List.mem_map.2 ⟨r, hr, rfl⟩
  · intro r hr
    exact (isPiece_iff _).2 (hspec.attained r hr)
  · intro r hr stop hpiece
    exact hspec.least r hr stop ((isPiece_iff _).1 hpiece)
  · rw [hspec.mixed, List.contains_iff_mem, List.mem_map]

/-- Whatever nodes are missing or seen, and however their spans lie to each other and to the
text, the map gathers the pieces. -/
theorem ofNodes_gathers (missing seen : List Node) (lines : List String) :
    Gathers missing seen lines (ofNodes missing seen lines) where
  keys lineno := by
    rw [mem_keys_ofNodes]
    constructor
    · rintro ⟨n, hn, f, hf, rfl⟩
      exact ⟨f.line, f.start, f.stop, (isPiece_iff f).2 (List.mem_flatMap.2 ⟨n, hn, hf⟩), rfl⟩
    · rintro ⟨line, start, stop, hpiece, rfl⟩
      obtain ⟨n, hn, hf⟩ := List.mem_flatMap.1 ((isPiece_iff _).1 hpiece)
      exact ⟨n, hn, _, hf, rfl⟩
  entries _ _ := narrowest_of_find?

end Coverage.LineMap
