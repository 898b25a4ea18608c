import Coverage.Proofs.Report.Marks
import Coverage.Proofs.Text.Absent
import Coverage.Proofs.Text.Pieces

/-!
The plain listing line by line: a summary, then every line that misses something with its marks
right below, then an empty line. Line numbers ascend, so that the last one is the widest and the
bars of all these lines stand below each other. A mark is therefore below the character that it
is about, and no missing column is left without one.
-/
namespace Coverage.Listing

/-- The first bar of the line stands at the offset, and the text two characters behind it. -/
def BarAt (line : String) (offset : Nat) (text : String) : Prop :=
  ∃ front : String, front.length = offset ∧ '|' ∉ front.toList ∧ line = front ++ "| " ++ text

/-- The two lines of an entry below each other. -/
structure Aligned (gutter lineno : Nat) (e : LineEntry) : Prop where
  source : BarAt (sourceLine gutter lineno e) (gutter + 3) e.source
  marks : BarAt (markLine gutter e) (gutter + 3) (marks e.missing)
  below : ∀ column,
    (sourceLine gutter lineno e).toList[gutter + 5 + column]? = e.source.toList[column]? ∧
      (markLine gutter e).toList[gutter + 5 + column]? = (Listing.marks e.missing).toList[column]?
  marked : ∀ r ∈ e.missing, ∀ column, r.start ≤ column → column < r.stop →
    (Listing.marks e.missing).toList[column]? = some '^'
  blank : ∀ column, (Listing.marks e.missing).toList[column]? = some ' ' →
    ∀ r ∈ e.missing, ¬ (r.start ≤ column ∧ column < r.stop)

/-- What a plain report gains with a file. Behind the line feed of the empty line nothing
follows. -/
structure Listed (l : Listing) : Prop where
  added : ∀ text, (Report.plain text).add l.filename l.snapshot = .plain (text ++ l.text)
  lines : splitLines l.text = l.summary :: (l.snapshot.coverage.entries.flatMap fun e =>
    [sourceLine l.gutter e.1 e.2, markLine l.gutter e.2]) ++ ["", ""]
  ascending : l.snapshot.coverage.keys.Pairwise (· < ·)
  aligned : ∀ e ∈ l.snapshot.coverage.entries, Aligned l.gutter e.1 e.2

section Lines

theorem newline_not_mem_summary {l : Listing} (h : '\n' ∉ l.filename.toList) :
    '\n' ∉ l.summary.toList := by
  have hnumber (n : Nat) : '\n' ∉ (toString n).toList := Text.not_mem_toString rfl n
  have hshare (share : Float) : '\n' ∉ (percentText share).toList :=
    Text.not_mem_percentText rfl (by decide) (by decide) share
  have htext (text : String) : toString text = text := rfl
  simp only [summary, htext, String.toList_append, List.mem_append, h, hnumber, hshare, false_or,
    or_false]
  decide

theorem newline_not_mem_sourceLine {e : LineEntry} (h : '\n' ∉ e.source.toList)
    (gutter lineno : Nat) : '\n' ∉ (sourceLine gutter lineno e).toList := by
  have hnumber : '\n' ∉ (toString lineno).toList := Text.not_mem_toString rfl lineno
  have hflag : '\n' ∉ (if e.mixed then "~ " else "! ").toList := by
    cases e.mixed <;> decide
  have hpadded := Text.not_mem_padLeft (by decide) hnumber gutter
  exact Text.not_mem_append (Text.not_mem_append (Text.not_mem_append hflag hpadded) (by decide)) h

theorem newline_not_mem_mark {held : List Char} (h : '\n' ∉ held) (r : ColumnRange) :
    '\n' ∉ mark held r := by
  simp [mark, h]

theorem newline_not_mem_markLine (gutter : Nat) (e : LineEntry) :
    '\n' ∉ (markLine gutter e).toList := by
  have hmarks : '\n' ∉ (marks e.missing).toList := by
    rw [marks, String.toList_ofList]
    generalize e.missing = ranges
    induction ranges using List.reverseRecOn with
    | nil => simp
    | append_singleton before last ih =>
        rw [List.foldl_append]
        exact newline_not_mem_mark ih last
  have hspaces : '\n' ∉ (Text.spaces gutter).toList := Text.not_mem_replicate (by decide) gutter
  exact Text.not_mem_append (Text.not_mem_append (Text.not_mem_append (by decide) hspaces)
    (by decide)) hmarks

theorem splitLines_text {l : Listing} (hname : '\n' ∉ l.filename.toList)
    (hsources : ∀ e ∈ l.snapshot.coverage.entries, '\n' ∉ e.2.source.toList) :
    splitLines l.text = l.lines ++ [""] := by
  refine Text.splitOn_join fun line hline => ?_
  simp only [lines, List.mem_append, List.mem_cons, List.mem_flatMap, List.not_mem_nil,
    or_false] at hline
  rcases hline with (rfl | ⟨e, he, rfl | rfl⟩) | rfl
  · exact newline_not_mem_summary hname
  · exact newline_not_mem_sourceLine (hsources e he) l.gutter e.1
  · exact newline_not_mem_markLine l.gutter e.2
  · decide

end Lines

theorem BarAt.getElem? {line text : String} {offset : Nat} (h : BarAt line offset text)
    (column : Nat) : line.toList[offset + 2 + column]? = text.toList[column]? := by
  obtain ⟨front, rfl, -, rfl⟩ := h
  have hlength : (front ++ "| ").toList.length = front.length + 2 := by
    simp [String.length_toList]
  rw [String.toList_append, List.getElem?_append_right (by omega), hlength,
    Nat.add_sub_cancel_left]

theorem barAt_sourceLine {gutter lineno : Nat} (h : (toString lineno).length ≤ gutter)
    (e : LineEntry) : BarAt (sourceLine gutter lineno e) (gutter + 3) e.source := by
  have hnumber : '|' ∉ (toString lineno).toList := Text.not_mem_toString rfl lineno
  have hflag : (if e.mixed then "~ " else "! ").length = 2 ∧
      '|' ∉ (if e.mixed then "~ " else "! ").toList := by
    cases e.mixed <;> decide
  refine ⟨(if e.mixed then "~ " else "! ") ++ Text.padLeft gutter (toString lineno) ++ " ",
    ?_, ?_, ?_⟩
  · rw [String.length_append, String.length_append, Text.length_padLeft, hflag.1, Nat.max_eq_left h]
    change 2 + gutter + 1 = gutter + 3
    omega
  · exact Text.not_mem_append (Text.not_mem_append hflag.2
      (Text.not_mem_padLeft (by decide) hnumber gutter)) (by decide)
  · simp [sourceLine, ← String.toList_inj]

theorem barAt_markLine (gutter : Nat) (e : LineEntry) :
    BarAt (markLine gutter e) (gutter + 3) (marks e.missing) := by
  refine ⟨"  " ++ Text.spaces gutter ++ " ", ?_, ?_, ?_⟩
  · rw [String.length_append, String.length_append, Text.length_spaces]
    change 2 + gutter + 1 = gutter + 3
    omega
  · exact Text.not_mem_append (Text.not_mem_append (by decide)
      (Text.not_mem_replicate (by decide) gutter)) (by decide)
  · simp [markLine, ← String.toList_inj]

/-- The gutter is made for the last line number, which is the greatest. -/
theorem length_lineno_le_gutter {l : Listing} {lineno : Nat}
    (h : lineno ∈ l.snapshot.coverage.keys) : (toString lineno).length ≤ l.gutter := by
  have hascending := l.snapshot.coverage.keys_ascending
  obtain ⟨before, last, hkeys⟩ : ∃ before last, l.snapshot.coverage.keys = before ++ [last] :=
    ⟨_, _, (List.dropLast_concat_getLast (List.ne_nil_of_mem h)).symm⟩
  have hgutter : l.gutter = (toString last).length := by
    simp [gutter, hkeys]
  rw [hkeys] at h hascending
  rw [hgutter]
  refine Numeral.length_toString_mono ?_
  rcases List.mem_append.1 h with hbefore | hlast
  · have hlt := (List.pairwise_append.1 hascending).2.2 lineno hbefore last (by simp)
    exact (Nat.compare_eq_lt.1 hlt).le
  · exact (List.mem_singleton.1 hlast).le

theorem aligned_of_ascending {gutter lineno : Nat} (h : (toString lineno).length ≤ gutter)
    {e : LineEntry} (hascending : e.missing.Pairwise fun r s => r.start < s.start) :
    Aligned gutter lineno e := by
  have hsource := barAt_sourceLine h e
  have hmarks := barAt_markLine gutter e
  have hmarked : ∀ r ∈ e.missing, ∀ column, r.start ≤ column → column < r.stop →
      (marks e.missing).toList[column]? = some '^' := by
    intro r hr column hstart hstop
    have hmark := marked_of_names hascending ⟨r, hr, .inl ⟨hstart, hstop⟩⟩
    rwa [Marked, ← String.toList_ofList (l := e.missing.foldl mark [])] at hmark
  refine ⟨hsource, hmarks, fun column => ⟨hsource.getElem? column, hmarks.getElem? column⟩,
    hmarked, ?_⟩
  intro column hblank r hr hcolumn
  rw [hmarked r hr column hcolumn.1 hcolumn.2] at hblank
  cases hblank

/-- A file is listed with its marks aligned, whatever its nodes and visits are. -/
theorem listed_ofLines {filename : String} (m : Manifest) (r : Recorder) {lines : List String}
    (source : String) (hname : '\n' ∉ filename.toList)
    (hlines : ∀ line ∈ lines, '\n' ∉ line.toList) :
    Listed ⟨filename, .ofLines m r lines source⟩ := by
  have hfound (e : Nat × LineEntry)
      (he : e ∈ (LineMap.ofNodes (m.missing r) (m.seen r) lines).entries) :=
    (OrderedMap.find?_eq_some_iff _ e.1 e.2).2 he
  have hsources : ∀ e ∈ (LineMap.ofNodes (m.missing r) (m.seen r) lines).entries,
      '\n' ∉ e.2.source.toList := by
    intro e he
    rw [LineMap.source_of_find? (hfound e he)]
    cases hline : lines[e.1 - 1]? with
    | none => decide
    | some line => exact hlines line (List.mem_of_getElem? hline)
  refine ⟨fun text => rfl, ?_, ?_, ?_⟩
  · rw [splitLines_text hname hsources, Listing.lines]
    simp
  · exact (OrderedMap.keys_ascending _).imp fun hlt => Nat.compare_eq_lt.1 hlt
  · intro e he
    have hkey : e.1 ∈ (LineMap.ofNodes (m.missing r) (m.seen r) lines).keys :=
      List.mem_map.2 ⟨e, he, rfl⟩
    exact aligned_of_ascending (length_lineno_le_gutter hkey)
      (LineMap.ascending_of_find? (hfound e he))

/-- Calls on the first and on the tenth line, one of them an argument of another. -/
def farApart : Manifest :=
  ⟨[⟨0, ⟨0, 0, 0, 9⟩, none⟩, ⟨1, ⟨9, 0, 9, 8⟩, none⟩, ⟨2, ⟨0, 5, 0, 8⟩, none⟩], .indexed 0,
    by decide⟩

def tenLines : List String :=
  ["open(a());", "", "", "", "", "", "", "", "", "close();"]

/-- The line numbers of this listing differ in width. -/
theorem listed_ofLines_farApart :
    '\n' ∉ "lib/a.js".toList ∧ (∀ line ∈ tenLines, '\n' ∉ line.toList) ∧
      (Snapshot.ofLines farApart .empty tenLines "").coverage.keys = [1, 10] ∧
      Listed ⟨"lib/a.js", .ofLines farApart .empty tenLines ""⟩ := by
  have hname : '\n' ∉ "lib/a.js".toList := by decide
  have hlines : ∀ line ∈ tenLines, '\n' ∉ line.toList := by decide
  -- Listed by their lines, the same nodes are sorted already.
  have hsorted : LineMap.ofNodes (farApart.missing .empty) (farApart.seen .empty) tenLines =
      LineMap.ofNodes [⟨0, ⟨0, 0, 0, 9⟩, none⟩, ⟨2, ⟨0, 5, 0, 8⟩, none⟩, ⟨1, ⟨9, 0, 9, 8⟩, none⟩]
        (farApart.seen .empty) tenLines :=
    LineMap.ofNodes_congr tenLines (fun n => (List.Perm.mem_iff (by decide))) fun n => .rfl
  have hkeys : (Snapshot.ofLines farApart .empty tenLines "").coverage.keys = [1, 10] := by
    change (LineMap.ofNodes (farApart.missing .empty) (farApart.seen .empty) tenLines).keys = _
    rw [hsorted, LineMap.ofNodes_of_sorted (by decide +kernel)]
    decide +kernel
  exact ⟨hname, hlines, hkeys, listed_ofLines farApart .empty "" hname hlines⟩

end Coverage.Listing
