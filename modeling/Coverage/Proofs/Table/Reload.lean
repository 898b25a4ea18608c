import Coverage.Proofs.Run.Files
import Coverage.Proofs.Table.Text

/-!
Runs of one table that is saved and read back now and then. A reload succeeds and loses the
sums; headers stay, and so does the text of the rows and of the footer. The next file to be
pushed makes a footer from the files since the reload, under the number of all files. The
shares beside the text are as exact as the reading of doubles.
-/
namespace Coverage.Table

inductive Step where
  | push (filename : String) (s : Snapshot)
  | reload

def step (read : Numeral.Reading) (t : Table) : Step → Option Table
  | .push filename s => some (t.push filename s)
  | .reload => t.reload read

def run (read : Numeral.Reading) (t : Table) (steps : List Step) : Option Table :=
  steps.foldlM (step read) t

def Step.file? : Step → Option (String × Snapshot)
  | .push filename s => some (filename, s)
  | .reload => none

/-- The files that are pushed in a run. -/
def files (steps : List Step) : List (String × Snapshot) := steps.filterMap Step.file?

/-- The run with its reloads left out. -/
def direct (steps : List Step) : Table := empty.pushAll (files steps)

/-- A step without the detour over the text. -/
def Step.apply (t : Table) : Step → Table
  | .push filename s => t.push filename s
  | .reload => t.forget

def applyAll (t : Table) (steps : List Step) : Table := steps.foldl Step.apply t

/-- A file is pushed after a reload. -/
def Resumes (steps : List Step) : Prop :=
  ∃ before after, steps = before ++ .reload :: after ∧ files after ≠ []

section Run

variable {t u : Table} {steps : List Step} {read : Numeral.Reading} {same : Row → Row → Prop}

theorem hasNumerals_push (h : t.HasNumerals) {filename : String} {s : Snapshot} (hs : s.IsRegular)
    (hfits : (t.sums.add s).Fits) : (t.push filename s).HasNumerals where
  rows r hr := by
    rcases List.mem_append.1 hr with hold | hnew
    · exact h.rows r hold
    · rw [List.mem_singleton.1 hnew]
      exact ⟨hs.lineShare, hs.blockShare⟩
  footer := ⟨ratio_isFinite _ hfits.lines, ratio_isFinite _ hfits.blocks⟩

theorem hasNumerals_empty : empty.HasNumerals where
  rows _ hr := absurd hr List.not_mem_nil
  footer := ⟨ratio_isFinite _ (by decide), ratio_isFinite _ (by decide)⟩

/-- Sums that fit have fitted all along. -/
theorem fits_add_of_addAll {sums : Sums} {s : Snapshot} {more : List (String × Snapshot)}
    (h : ((sums.add s).addAll more).Fits) : (sums.add s).Fits := by
  obtain ⟨hlines, hblocks⟩ := h
  rw [Sums.addAll_eq] at hlines hblocks
  exact ⟨by simp only at hlines; omega, by simp only at hblocks; omega⟩

theorem hasNumerals_pushAll {files : List (String × Snapshot)} (h : t.HasNumerals)
    (hregular : ∀ f ∈ files, f.2.IsRegular) (hfits : (t.sums.addAll files).Fits) :
    (t.pushAll files).HasNumerals := by
  induction files generalizing t with
  | nil => exact h
  | cons f rest ih =>
      obtain ⟨hf, hrest⟩ := List.forall_mem_cons.1 hregular
      exact ih (hasNumerals_push h hf (fits_add_of_addAll hfits)) hrest hfits

theorem fits_zero_addAll {sums : Sums} {more : List (String × Snapshot)}
    (h : (sums.addAll more).Fits) : (Sums.zero.addAll more).Fits := by
  obtain ⟨hlines, hblocks⟩ := h
  rw [Sums.addAll_eq] at hlines hblocks ⊢
  simp only [Sums.zero] at hlines hblocks ⊢
  exact ⟨by simp only; omega, by simp only; omega⟩

theorem Alike.push (hkeeps : Row.Keeps read same) (h : Alike same t u) (filename : String)
    (s : Snapshot) : Alike same (t.push filename s) (u.push filename s) where
  headers := h.headers
  rows := List.rel_append h.rows (.cons (hkeeps.refl _) .nil)
  footer := by
    have hrows : t.rows.length = u.rows.length := h.rows.length_eq
    have hfooter : (t.push filename s).footer = (u.push filename s).footer := by
      simp only [Table.push, h.sums, List.length_append, hrows]
    rw [hfooter]
    exact hkeeps.refl _
  sums := congrArg (·.add s) h.sums

theorem Alike.refl (hkeeps : Row.Keeps read same) (t : Table) : Alike same t t where
  headers := rfl
  rows := List.forall₂_same.2 fun r _ => hkeeps.refl r
  footer := hkeeps.refl t.footer
  sums := rfl

theorem Alike.forget (h : Alike same t u) : Alike same t.forget u.forget :=
  ⟨h.headers, h.rows, h.footer, rfl⟩

theorem Alike.trans (hkeeps : Row.Keeps read same) {v : Table} (h : Alike same t u)
    (h' : Alike same u v) : Alike same t v where
  headers := h.headers.trans h'.headers
  rows := hkeeps.forall₂_trans h.rows h'.rows
  footer := hkeeps.trans h.footer h'.footer
  sums := h.sums.trans h'.sums

/-- No reload of regular files fails, and the run stays beside the one without the detours. -/
theorem exists_run (hkeeps : Row.Keeps read same) (hsame : Alike same t u) (h : t.HasNumerals)
    (hregular : ∀ f ∈ files steps, f.2.IsRegular) (hfits : (t.sums.addAll (files steps)).Fits) :
    ∃ t', t.run read steps = some t' ∧ Alike same t' (u.applyAll steps) := by
  induction steps generalizing t u with
  | nil => exact ⟨t, rfl, hsame⟩
  | cons a rest ih =>
      cases a with
      | push filename s =>
          have hs : s.IsRegular := hregular (filename, s) List.mem_cons_self
          exact ih (hsame.push hkeeps filename s) (hasNumerals_push h hs (fits_add_of_addAll hfits))
            (fun f hf => hregular f (List.mem_cons_of_mem _ hf)) hfits
      | reload =>
          obtain ⟨v, hv, hnumerals, halike⟩ := exists_reload hkeeps h
          rw [run, List.foldlM_cons, step, hv]
          refine ih (halike.trans hkeeps hsame.forget) hnumerals hregular ?_
          rw [halike.sums]
          exact fits_zero_addAll hfits

@[simp]
theorem applyAll_headers : (t.applyAll steps).headers = t.headers := by
  induction steps generalizing t with
  | nil => rfl
  | cons a rest ih => cases a <;> exact ih

@[simp]
theorem applyAll_rows : (t.applyAll steps).rows =
    t.rows ++ (files steps).map fun f => .ofSnapshot f.1 f.2 := by
  induction steps generalizing t with
  | nil => exact (List.append_nil _).symm
  | cons a rest ih =>
      cases a with
      | push filename s =>
          refine ih.trans ?_
          simp [files, Step.file?, Step.apply, push]
      | reload => exact ih

theorem applyAll_footer_of_files_eq_nil (h : files steps = []) :
    (t.applyAll steps).footer = t.footer := by
  induction steps generalizing t with
  | nil => rfl
  | cons a rest ih =>
      cases a with
      | push filename s => cases h
      | reload => exact ih h

/-- Nothing is noticed of reloads that no file follows. -/
theorem applyAll_footer (h : ¬ Resumes steps) :
    (t.applyAll steps).footer = (t.pushAll (files steps)).footer := by
  induction steps generalizing t with
  | nil => rfl
  | cons a rest ih =>
      cases a with
      | push filename s =>
          exact ih fun ⟨before, after, hsplit, hfiles⟩ =>
            h ⟨.push filename s :: before, after, by rw [hsplit]; rfl, hfiles⟩
      | reload =>
          have hnone : files rest = [] := by
            by_contra hfiles
            exact h ⟨[], rest, rfl, hfiles⟩
          have hfiles : files (.reload :: rest) = [] := hnone
          rw [hfiles]
          exact applyAll_footer_of_files_eq_nil hnone

end Run

section Footer

variable {steps before later : List Step}

/-- The last reload that a file follows. -/
theorem exists_last_reload (h : Resumes steps) :
    ∃ before later, steps = before ++ .reload :: later ∧ files later ≠ [] ∧ ¬ Resumes later := by
  induction steps with
  | nil =>
      obtain ⟨before, after, hsplit, -⟩ := h
      simp at hsplit
  | cons a rest ih =>
      by_cases hrest : Resumes rest
      · obtain ⟨before, later, hsplit, hlater⟩ := ih hrest
        exact ⟨a :: before, later, by rw [hsplit]; rfl, hlater⟩
      · obtain ⟨before, after, hsplit, hafter⟩ := h
        cases before with
        | nil =>
            obtain ⟨rfl, rfl⟩ := List.cons.inj hsplit
            exact ⟨[], rest, rfl, hafter, hrest⟩
        | cons b before =>
            exact absurd ⟨before, after, (List.cons.inj hsplit).2, hafter⟩ hrest

theorem files_split (before later : List Step) :
    files (before ++ .reload :: later) = files before ++ files later := by
  rw [files, List.filterMap_append]
  rfl

/-- The numbers of a footer can be read off its cells. -/
theorem footer_inj {a b : Sums} {count : Nat}
    (h : (a.footer count).values = (b.footer count).values) :
    a.missingLines = b.missingLines ∧ a.totalLines = b.totalLines ∧
      a.missingBlocks = b.missingBlocks ∧ a.totalBlocks = b.totalBlocks := by
  simp only [Sums.footer, Row.make, List.cons.injEq, and_true] at h
  obtain ⟨-, hmissingLines, htotalLines, -, hmissingBlocks, htotalBlocks⟩ := h
  exact ⟨Numeral.toString_inj hmissingLines, Numeral.toString_inj htotalLines,
    Numeral.toString_inj hmissingBlocks, Numeral.toString_inj htotalBlocks⟩

theorem sum_map_eq_zero_iff {files : List (String × Snapshot)} (part : Snapshot → Nat) :
    (files.map fun f => part f.2).sum = 0 ↔ ∀ f ∈ files, part f.2 = 0 := by
  rw [List.sum_eq_zero_iff, List.forall_mem_map]

section Lost

variable {lost kept : List (String × Snapshot)} {count : Nat}

/-- A part of the sums that shows in no cell is one of files with nothing to count. -/
theorem countsNothing_of_footer (h : ((Sums.zero.addAll kept).footer count).values =
    ((Sums.zero.addAll (lost ++ kept)).footer count).values) : ∀ f ∈ lost, f.2.CountsNothing := by
  have hnumbers := footer_inj h
  simp only [Sums.addAll_eq, List.map_append, List.sum_append] at hnumbers
  obtain ⟨hmissingLines, htotalLines, hmissingBlocks, htotalBlocks⟩ := hnumbers
  intro f hf
  exact ⟨(sum_map_eq_zero_iff (·.total)).1 (by omega) f hf,
    (sum_map_eq_zero_iff (·.missing)).1 (by omega) f hf,
    (sum_map_eq_zero_iff (·.blocks.total)).1 (by omega) f hf,
    (sum_map_eq_zero_iff (·.blocks.missing)).1 (by omega) f hf⟩

theorem footer_eq_of_countsNothing (hregular : ∀ f ∈ lost, f.2.IsRegular)
    (h : ∀ f ∈ lost, f.2.CountsNothing) :
    (Sums.zero.addAll kept).footer count = (Sums.zero.addAll (lost ++ kept)).footer count := by
  have hlines : ∀ f ∈ lost, f.2.seen = 0 := fun f hf =>
    Nat.eq_zero_of_le_zero ((hregular f hf).lines.trans_eq (h f hf).lines)
  have hblocks : ∀ f ∈ lost, f.2.blocks.seen = 0 := fun f hf =>
    Nat.eq_zero_of_le_zero ((hregular f hf).blocks.trans_eq (h f hf).blocks)
  rw [Sums.addAll_eq, Sums.addAll_eq]
  simp only [List.map_append, List.sum_append]
  rw [(sum_map_eq_zero_iff (·.seen)).2 hlines, (sum_map_eq_zero_iff (·.blocks.seen)).2 hblocks,
    (sum_map_eq_zero_iff (·.total)).2 fun f hf => (h f hf).lines,
    (sum_map_eq_zero_iff (·.missing)).2 fun f hf => (h f hf).missingLines,
    (sum_map_eq_zero_iff (·.blocks.total)).2 fun f hf => (h f hf).blocks,
    (sum_map_eq_zero_iff (·.blocks.missing)).2 fun f hf => (h f hf).missingBlocks]
  simp only [Nat.zero_add]

end Lost

end Footer

/-- The end of a run with reloads, against the run without them. Headers are the same and rows
are related. If no file follows a reload then so is the footer. Otherwise the footer counts the
files since the last reload that a file follows, and is right just if there was nothing to count
before. -/
structure CountsSinceReload (same : Row → Row → Prop) (steps : List Step) (t : Table) : Prop where
  headers : t.headers = (direct steps).headers
  rows : List.Forall₂ same t.rows (direct steps).rows
  footer : ¬ Resumes steps ∧ same t.footer (direct steps).footer ∨
    ∃ before later, steps = before ++ .reload :: later ∧ files later ≠ [] ∧ ¬ Resumes later ∧
      same t.footer ((Sums.zero.addAll (files later)).footer (files steps).length) ∧
      (same t.footer (direct steps).footer ↔ ∀ f ∈ files before, f.2.CountsNothing)

section CountsSinceReload

variable {read : Numeral.Reading} {same : Row → Row → Prop} {steps : List Step}
  (hkeeps : Row.Keeps read same)

include hkeeps

theorem countsSinceReload_of_alike {t : Table} (hregular : ∀ f ∈ files steps, f.2.IsRegular)
    (h : Alike same t (empty.applyAll steps)) : CountsSinceReload same steps t := by
  refine ⟨?_, ?_, ?_⟩
  · rw [h.headers, applyAll_headers, direct, pushAll_headers]
  · have hrows := h.rows
    rwa [applyAll_rows, ← pushAll_rows] at hrows
  · by_cases hresumes : Resumes steps
    · obtain ⟨before, later, rfl, hlater, hlast⟩ := exists_last_reload hresumes
      have happlied : (empty.applyAll (before ++ .reload :: later)).footer =
          (Sums.zero.addAll (files later)).footer (files (before ++ .reload :: later)).length := by
        have hsplit : empty.applyAll (before ++ .reload :: later) =
            ((empty.applyAll before).forget).applyAll later := List.foldl_append
        have hrows : ((empty.applyAll before).forget).rows.length = (files before).length := by
          rw [forget, applyAll_rows, List.length_append, List.length_map]
          exact Nat.zero_add _
        rw [hsplit, applyAll_footer hlast, pushAll_footer _ _ hlater, hrows, files_split,
          List.length_append]
        rfl
      have hfooter := happlied ▸ h.footer
      refine .inr ⟨before, later, rfl, hlater, hlast, hfooter, ?_⟩
      rw [direct, pushAll_empty_footer]
      constructor
      · intro hdirect
        have hvalues := (hkeeps.sameText hfooter).values.symm.trans (hkeeps.sameText hdirect).values
        rw [files_split] at hvalues
        exact countsNothing_of_footer hvalues
      · intro hnothing
        have hregular' : ∀ f ∈ files before, f.2.IsRegular := fun f hf =>
          hregular f (files_split before later ▸ List.mem_append_left _ hf)
        rw [files_split] at hfooter ⊢
        exact footer_eq_of_countsNothing hregular' hnothing ▸ hfooter
    · exact .inl ⟨hresumes, applyAll_footer hresumes ▸ h.footer⟩

end CountsSinceReload

/-- Whatever shares are read as, as long as none is refused, the run shows the text that is
said here; where they are read exactly, it also holds the shares. -/
theorem run_countsSinceReload {read : Numeral.Reading} (hread : read.Admits) {steps : List Step}
    (hregular : ∀ f ∈ files steps, f.2.IsRegular) (hfits : (Sums.zero.addAll (files steps)).Fits) :
    ∃ t, empty.run read steps = some t ∧ CountsSinceReload Row.SameText steps t ∧
      (read.IsExact → CountsSinceReload Eq steps t) := by
  have hrun {same : Row → Row → Prop} (hkeeps : Row.Keeps read same) :
      ∃ t, empty.run read steps = some t ∧ CountsSinceReload same steps t := by
    obtain ⟨t, ht, halike⟩ :=
      exists_run hkeeps (.refl hkeeps empty) hasNumerals_empty hregular hfits
    exact ⟨t, ht, countsSinceReload_of_alike hkeeps hregular halike⟩
  obtain ⟨t, ht, hcounts⟩ := hrun (Row.keeps_sameText hread)
  refine ⟨t, ht, hcounts, fun hexact => ?_⟩
  obtain ⟨u, hu, hcounts'⟩ := hrun (Row.keeps_eq hexact)
  rw [ht] at hu
  exact Option.some.inj hu ▸ hcounts'

/-- Two files with a reload in between; one line of four was seen of the first. -/
def reloadedBetween : List Step :=
  [.push "a.js" ⟨0.25, [], 3, 1, 4, .empty, "s", ⟨0, 0, 0, 1.0⟩, ⟨2, 0, 2, 0.0⟩⟩, .reload,
    .push "b.js" ⟨1.0, [], 0, 4, 4, .empty, "s", ⟨0, 0, 0, 1.0⟩, ⟨2, 2, 0, 1.0⟩⟩]

theorem isRegular_reloadedBetween : ∀ f ∈ files reloadedBetween, f.2.IsRegular := by
  intro f hf
  simp only [reloadedBetween, files, List.filterMap_cons, Step.file?, List.filterMap_nil,
    List.mem_cons, List.not_mem_nil, or_false] at hf
  rcases hf with rfl | rfl
  · exact ⟨by decide, by decide, by decide +kernel, by decide +kernel⟩
  · exact ⟨by decide, by decide, by decide +kernel, by decide +kernel⟩

theorem fits_reloadedBetween : (Sums.zero.addAll (files reloadedBetween)).Fits :=
  ⟨by decide, by decide⟩

theorem run_reloadedBetween : Numeral.Reading.Admits Numeral.toFloat? ∧
    (∀ f ∈ files reloadedBetween, f.2.IsRegular) ∧
    (Sums.zero.addAll (files reloadedBetween)).Fits ∧
    ∃ t, empty.run Numeral.toFloat? reloadedBetween = some t ∧
      CountsSinceReload Row.SameText reloadedBetween t ∧ CountsSinceReload Eq reloadedBetween t := by
  have hexact := Numeral.Reading.isExact_toFloat?
  obtain ⟨t, ht, htext, hshares⟩ :=
    run_countsSinceReload hexact.admits isRegular_reloadedBetween fits_reloadedBetween
  exact ⟨hexact.admits, isRegular_reloadedBetween, fits_reloadedBetween, t, ht, htext,
    hshares hexact⟩

/-- The footer that should count both files counts the second one only. -/
theorem footer_reloadedBetween : ∃ t, empty.run Numeral.toFloat? reloadedBetween = some t ∧
    t.footer.label = "Total (2 files)" ∧ t.footer.values = ["100%", "0", "4", "100%", "0", "2"] ∧
    (direct reloadedBetween).footer.values = ["62%", "3", "8", "50%", "2", "4"] ∧
    t.footer ≠ (direct reloadedBetween).footer := by
  have hkeeps := Row.keeps_eq Numeral.Reading.isExact_toFloat?
  obtain ⟨t, ht, halike⟩ := exists_run hkeeps (.refl hkeeps empty) hasNumerals_empty
    isRegular_reloadedBetween fits_reloadedBetween
  obtain rfl := halike.eq
  have hvalues : (empty.applyAll reloadedBetween).footer.values =
      ["100%", "0", "4", "100%", "0", "2"] := by decide +kernel
  have hdirect : (direct reloadedBetween).footer.values = ["62%", "3", "8", "50%", "2", "4"] := by
    decide +kernel
  refine ⟨_, ht, by decide +kernel, hvalues, hdirect, fun h => ?_⟩
  rw [← h, hvalues] at hdirect
  revert hdirect
  decide

end Coverage.Table

namespace Coverage.Run

variable {r : Run} {w : Workspace} {o : Options}

theorem isRegular_of_mem_files {files : List (String × Snapshot)} (h : r.files w o = .ok files)
    (hfits : (Sums.zero.addAll files).Fits) : ∀ f ∈ files, f.2.IsRegular := by
  intro f hf
  obtain ⟨s, -, -, hs⟩ := exists_session_of_mem_files h hf
  obtain ⟨hlines, hblocks⟩ := hfits.of_mem hf
  rw [Session.currentSnapshot] at hs
  cases hread : w.readText s.filename with
  | error why =>
      rw [hread] at hs
      cases hs
  | ok text =>
      rw [hread] at hs
      have hsnapshot : s.snapshot text = f.2 := Except.ok.inj hs
      rw [← hsnapshot] at hlines hblocks ⊢
      exact Snapshot.isRegular_ofLines s.manifest s.recorder s.source hlines hblocks

/-- The table of a run can be read back, and only its sums are lost. -/
theorem exists_reload_table {read : Numeral.Reading} {same : Row → Row → Prop}
    (hkeeps : Row.Keeps read same) {t : Table} (h : r.table w o = .ok t) (hfits : t.sums.Fits) :
    ∃ u, t.reload read = some u ∧ u.HasNumerals ∧ Table.Alike same u t.forget := by
  rw [table_eq] at h
  cases hfiles : r.files w o with
  | error e =>
      rw [hfiles] at h
      cases h
  | ok files =>
      rw [hfiles] at h
      cases h
      rw [Table.pushAll_sums] at hfits
      refine Table.exists_reload hkeeps ?_
      exact Table.hasNumerals_pushAll Table.hasNumerals_empty
        (isRegular_of_mem_files hfiles hfits) hfits

end Coverage.Run
