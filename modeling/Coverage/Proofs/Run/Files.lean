import Coverage.Collection
import Coverage.Proofs.Number.Order
import Coverage.Proofs.Path.Order
import Coverage.Proofs.Run
import Coverage.Proofs.Table
import Coverage.Proofs.Text.Bytes

/-!
The files of a run in a report. If every source can be read, each session stands there once,
under its name and with its snapshot: by name in the order of bytes, or by percentage in the
order of doubles and then by name. Files that this does not tell apart stay in path order.
Otherwise every report fails with the first file in path order that cannot be read, however
it is to be sorted.
-/
namespace Coverage

/-- The source of the session can be read. -/
def Session.IsReadable (s : Session) (w : Workspace) : Prop :=
  ∃ text, w.readText s.filename = .ok text

/-- The session's line in a report: its name relative to the base and its snapshot. -/
def Session.ShownAs (s : Session) (w : Workspace) (o : Options) (f : String × Snapshot) : Prop :=
  f.1 = s.filename.displayed o.base ∧ s.currentSnapshot w = .ok f.2

namespace SortOrder

/-- All that the order looks at. -/
def key : SortOrder → String × Snapshot → Option UInt64 × String
  | filename, f => (none, f.1)
  | coverage, f => (some f.2.percentage.toBits, f.1)

/-- One file may stand before another. -/
def Precedes : SortOrder → String × Snapshot → String × Snapshot → Prop
  | filename, f, g => Text.bytes f.1 ≤ Text.bytes g.1
  | coverage, f, g =>
      Binary64.rank f.2.percentage.toBits ≤ Binary64.rank g.2.percentage.toBits ∧
        ¬ g.2.percentage < f.2.percentage ∧
        (f.2.percentage.toBits = g.2.percentage.toBits → Text.bytes f.1 ≤ Text.bytes g.1)

instance (o : SortOrder) : Std.TransCmp o.compareFiles := by
  cases o
  · exact inferInstanceAs (Std.TransCmp (compareOn fun f : String × Snapshot => f.1))
  · exact inferInstanceAs (Std.TransCmp (compareLex
      (compareOn fun f : String × Snapshot => Binary64.rank f.2.percentage.toBits)
      (compareOn fun f : String × Snapshot => f.1)))

theorem le_trans (o : SortOrder) (f g h : String × Snapshot) (hfg : o.le f g = true)
    (hgh : o.le g h = true) : o.le f h = true :=
  Std.TransCmp.isLE_trans hfg hgh

theorem le_total (o : SortOrder) (f g : String × Snapshot) : (o.le f g || o.le g f) = true :=
  Path.isLE_total o.compareFiles f g

theorem isLE_compare_iff (s t : String) :
    (compare s t).isLE = true ↔ Text.bytes s ≤ Text.bytes t := by
  rw [← Text.le_iff_bytes_le]
  exact isLE_compareOfLessAndEq String.le_antisymm String.not_le String.le_total

theorem precedes_of_le {o : SortOrder} {f g : String × Snapshot} (h : o.le f g = true) :
    o.Precedes f g := by
  cases o with
  | filename => exact (isLE_compare_iff f.1 g.1).1 h
  | coverage =>
      have hless := Binary64.rank_lt_of_lt (x := g.2.percentage) (y := f.2.percentage)
      rcases Ordering.isLE_then_iff_or.1 h with hlt | ⟨heq, hname⟩
      · have hrank : Binary64.rank f.2.percentage.toBits < Binary64.rank g.2.percentage.toBits :=
          Nat.compare_eq_lt.1 hlt
        refine ⟨hrank.le, fun hgf => lt_asymm hrank (hless hgf), fun hsame => ?_⟩
        rw [hsame] at hrank
        exact absurd hrank (lt_irrefl _)
      · have hrank : Binary64.rank f.2.percentage.toBits = Binary64.rank g.2.percentage.toBits :=
          Nat.compare_eq_eq.1 heq
        exact ⟨hrank.le, fun hgf => (hless hgf).ne hrank.symm,
          fun _ => (isLE_compare_iff f.1 g.1).1 hname⟩

theorem le_of_key_eq {o : SortOrder} {f g : String × Snapshot} (h : o.key f = o.key g) :
    o.le f g = true := by
  cases o with
  | filename =>
      have hname : f.1 = g.1 := (Prod.mk.inj h).2
      rw [le, compareFiles, compareOn, hname]
      simp
  | coverage =>
      have hbits := Option.some.inj (Prod.mk.inj h).1
      have hname : f.1 = g.1 := (Prod.mk.inj h).2
      rw [le, compareFiles, compareLex, compareOn, compareOn, hname, hbits]
      simp

end SortOrder

namespace Run

variable {r : Run} {w : Workspace} {o : Options}

section Readable

variable {α β ε : Type} {f : α → Except ε β} {l : List α}

/-- A pass over a list succeeds with the results of its elements. -/
theorem mapM_eq_ok_iff (f : α → Except ε β) (l : List α) (results : List β) :
    l.mapM f = .ok results ↔ List.Forall₂ (fun a b => f a = .ok b) l results := by
  induction l generalizing results with
  | nil => cases results <;> simp [pure, Except.pure]
  | cons a rest ih =>
      rw [List.mapM_cons]
      cases ha : f a with
      | error e => cases results <;> simp [bind, Except.bind, ha]
      | ok b =>
          cases hrest : rest.mapM f with
          | error e => cases results <;> simp [bind, Except.bind, ← ih, hrest, ha]
          | ok bs => cases results <;> simp [bind, Except.bind, pure, Except.pure, ← ih, hrest, ha]

theorem exists_mapM_eq_ok (h : ∀ a ∈ l, ∃ b, f a = .ok b) : ∃ results, l.mapM f = .ok results := by
  induction l with
  | nil => exact ⟨[], rfl⟩
  | cons a rest ih =>
      obtain ⟨b, hb⟩ := h a List.mem_cons_self
      obtain ⟨bs, hbs⟩ := ih fun c hc => h c (List.mem_cons_of_mem _ hc)
      exact ⟨b :: bs, (mapM_eq_ok_iff ..).2 (.cons hb ((mapM_eq_ok_iff ..).1 hbs))⟩

/-- The first element that fails makes the pass fail. -/
theorem mapM_eq_error {before after : List α} {a : α} {e : ε}
    (hbefore : ∀ b ∈ before, ∃ c, f b = .ok c) (ha : f a = .error e) :
    (before ++ a :: after).mapM f = .error e := by
  induction before with
  | nil =>
      rw [List.nil_append, List.mapM_cons, ha]
      rfl
  | cons b rest ih =>
      obtain ⟨c, hc⟩ := hbefore b List.mem_cons_self
      rw [List.cons_append, List.mapM_cons, hc, ih fun d hd => hbefore d (List.mem_cons_of_mem _ hd)]
      rfl

/-- If some element fails then one of them fails first. -/
theorem exists_first_failure (h : ∃ a ∈ l, ¬ ∃ b, f a = .ok b) :
    ∃ before a after e, l = before ++ a :: after ∧ (∀ b ∈ before, ∃ c, f b = .ok c) ∧
      f a = .error e := by
  induction l with
  | nil =>
      obtain ⟨a, ha, -⟩ := h
      cases ha
  | cons b rest ih =>
      cases hb : f b with
      | error e => exact ⟨[], b, rest, e, rfl, by simp, hb⟩
      | ok c =>
          obtain ⟨a, ha, hfails⟩ := h
          rcases List.mem_cons.1 ha with rfl | ha
          · exact absurd ⟨c, hb⟩ hfails
          · obtain ⟨before, d, after, e, rfl, hbefore, hd⟩ := ih ⟨a, ha, hfails⟩
            exact ⟨b :: before, d, after, e, rfl, List.forall_mem_cons.2 ⟨⟨c, hb⟩, hbefore⟩, hd⟩

end Readable

/-- The files stand in the order of the options, one for each session, and those that the
order does not tell apart stand as the sessions do. -/
structure Arranges (w : Workspace) (o : Options) (sessions : List Session)
    (files : List (String × Snapshot)) : Prop where
  rearranged : ∃ shown, List.Forall₂ (fun s f => s.ShownAs w o f) sessions shown ∧
    files.Perm shown ∧
    ∀ key, files.filter (o.order.key · = key) = shown.filter (o.order.key · = key)
  ordered : files.Pairwise o.order.Precedes

/-- What the reports of a run say of its files. -/
structure ReportsEach (r : Run) (w : Workspace) : Prop where
  pathOrder : r.list.Pairwise fun s t => compare s.filename t.filename = .lt
  listed : (∀ s ∈ r.list, s.IsReadable w) → ∀ o, ∃ files t, Arranges w o r.list files ∧
    r.files w o = .ok files ∧
    r.table w o = .ok t ∧ t.rows = files.map (fun f => .ofSnapshot f.1 f.2) ∧
    r.report w o = .ok ((Report.start o.kind).addAll files).finish.1
  failed : (∃ s ∈ r.list, ¬ s.IsReadable w) → ∃ before s after why,
    r.list = before ++ s :: after ∧ (∀ t ∈ before, t.IsReadable w) ∧
    w.readText s.filename = .error why ∧
    ∀ o, r.files w o = .error (.unreadable s.filename why) ∧
      r.table w o = .error (.unreadable s.filename why) ∧
      r.report w o = .error (.unreadable s.filename why)

theorem arranges_mergeSort {sessions : List Session} {shown : List (String × Snapshot)}
    (h : List.Forall₂ (fun s f => s.ShownAs w o f) sessions shown) :
    Arranges w o sessions (shown.mergeSort o.order.le) where
  rearranged := by
    refine ⟨shown, h, shown.mergeSort_perm _, fun key => ?_⟩
    refine Path.filter_mergeSort o.order.le_trans o.order.le_total (fun f g hf hg => ?_) shown
    exact SortOrder.le_of_key_eq ((of_decide_eq_true hf).trans (of_decide_eq_true hg).symm)
  ordered := by
    have hsorted := List.pairwise_mergeSort o.order.le_trans o.order.le_total shown
    exact hsorted.imp SortOrder.precedes_of_le

/-- The pass over the sessions gives their lines before they are sorted. -/
theorem forall₂_shownAs {snapshots : List (Path × Snapshot)} (o : Options)
    (h : r.snapshots w = .ok snapshots) :
    List.Forall₂ (fun s f => s.ShownAs w o f) r.list
      (snapshots.map fun f => (f.1.displayed o.base, f.2)) := by
  rw [List.forall₂_map_right_iff]
  refine ((mapM_eq_ok_iff _ _ _).1 h).imp fun s f hf => ?_
  cases hs : s.currentSnapshot w with
  | error e =>
      rw [hs] at hf
      cases hf
  | ok snapshot =>
      rw [hs] at hf
      cases hf
      exact ⟨rfl, hs⟩

/-- A session gives its line if and only if its source can be read. -/
theorem isReadable_iff (s : Session) (w : Workspace) :
    s.IsReadable w ↔
      ∃ f, ((s.currentSnapshot w).map fun snapshot => (s.filename, snapshot)) = .ok f := by
  rw [Session.IsReadable, Session.currentSnapshot]
  cases w.readText s.filename with
  | error why => simp [Except.map]
  | ok text => simp [Except.map]

theorem exists_snapshots (h : ∀ s ∈ r.list, s.IsReadable w) :
    ∃ snapshots, r.snapshots w = .ok snapshots :=
  exists_mapM_eq_ok fun s hs => (isReadable_iff s w).1 (h s hs)

/-- The first session whose source cannot be read fails the pass. -/
theorem exists_snapshots_eq_error (h : ∃ s ∈ r.list, ¬ s.IsReadable w) :
    ∃ before s after why, r.list = before ++ s :: after ∧ (∀ t ∈ before, t.IsReadable w) ∧
      w.readText s.filename = .error why ∧
      r.snapshots w = .error (.unreadable s.filename why) := by
  simp only [isReadable_iff] at h
  obtain ⟨before, s, after, e, hlist, hbefore, hs⟩ := exists_first_failure h
  have hsnapshots : r.snapshots w = .error e := by
    rw [snapshots, hlist]
    exact mapM_eq_error hbefore hs
  cases hread : w.readText s.filename with
  | ok text =>
      rw [Session.currentSnapshot, hread] at hs
      cases hs
  | error why =>
      rw [Session.currentSnapshot, hread] at hs
      cases hs
      exact ⟨before, s, after, why, hlist, fun t ht => (isReadable_iff t w).2 (hbefore t ht),
        hread, hsnapshots⟩

theorem files_eq (r : Run) (w : Workspace) (o : Options) :
    r.files w o = (r.snapshots w).map fun snapshots =>
      (snapshots.map fun f => (f.1.displayed o.base, f.2)).mergeSort o.order.le := by
  rw [files]
  cases r.snapshots w <;> rfl

theorem table_eq (r : Run) (w : Workspace) (o : Options) :
    r.table w o = (r.files w o).map Table.empty.pushAll := by
  rw [table]
  cases r.files w o <;> rfl

theorem report_eq (r : Run) (w : Workspace) (o : Options) :
    r.report w o = (r.files w o).map fun files => ((Report.start o.kind).addAll files).finish.1 := by
  rw [report]
  cases r.files w o <;> rfl

/-- Every line of a report is that of a session. -/
theorem exists_session_of_mem_files {files : List (String × Snapshot)}
    (h : r.files w o = .ok files) {f : String × Snapshot} (hf : f ∈ files) :
    ∃ s ∈ r.list, s.ShownAs w o f := by
  rw [files_eq] at h
  cases hsnapshots : r.snapshots w with
  | error e =>
      rw [hsnapshots] at h
      cases h
  | ok snapshots =>
      rw [hsnapshots] at h
      cases h
      obtain ⟨hlength, hshown⟩ := List.forall₂_iff_get.1 (forall₂_shownAs o hsnapshots)
      obtain ⟨i, hi, rfl⟩ := List.getElem_of_mem (List.mem_mergeSort.1 hf)
      exact ⟨_, List.getElem_mem (hlength ▸ hi), hshown i (hlength ▸ hi) hi⟩

/-- Whatever the steps were, reports list every file once or fail as a whole. -/
theorem stepAll_reportsEach (steps : List Step) (w : Workspace) :
    ReportsEach (empty.stepAll steps) w where
  pathOrder := (keyed_empty.stepAll steps).ascending
  listed := by
    intro h o
    obtain ⟨snapshots, hsnapshots⟩ := exists_snapshots h
    refine ⟨_, _, arranges_mergeSort (forall₂_shownAs o hsnapshots), ?_, ?_,
      Table.pushAll_rows .empty _, ?_⟩
    · rw [files_eq, hsnapshots, Except.map]
    · rw [table_eq, files_eq, hsnapshots, Except.map, Except.map]
    · rw [report_eq, files_eq, hsnapshots, Except.map, Except.map]
  failed := by
    intro h
    obtain ⟨before, s, after, why, hlist, hbefore, hread, hsnapshots⟩ := exists_snapshots_eq_error h
    refine ⟨before, s, after, why, hlist, hbefore, hread, fun o => ?_⟩
    have hfiles : (empty.stepAll steps).files w o = .error (.unreadable s.filename why) := by
      rw [files_eq, hsnapshots, Except.map]
    exact ⟨hfiles, by rw [table_eq, hfiles, Except.map], by rw [report_eq, hfiles, Except.map]⟩

end Run

end Coverage
