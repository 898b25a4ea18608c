import Coverage.Proofs.Dump.Replay
import Coverage.Proofs.Dump.Text
import Coverage.Proofs.Snapshot

/-!
Runs of one session that is saved and loaded again now and then. A reloaded
session is not the one that was saved: it has forgotten the ids that its manifest
does not know. The two agree on all that the session can be asked for, and every
event and every further reload keeps them in agreement.
-/
namespace Coverage

/-- The session is written as a dump, and the text is read and replayed. -/
def Session.reload (s : Session) (origin base : Path) : Except Failure Session := do
  let text ← (Dump.ofSession s).text
  let dump ← Dump.ofText text origin
  dump.replay base

namespace Reload

open Text (IsText)

inductive Step where
  | event (e : Event)
  | reload (origin base : Path)

def step (s : Session) : Step → Except Failure Session
  | .event e => .ok (s.observe e)
  | .reload origin base => s.reload origin base

def run (s : Session) (steps : List Step) : Except Failure Session := steps.foldlM step s

def Step.event? : Step → Option Event
  | .event e => some e
  | .reload _ _ => none

/-- The run with its reloads left out. -/
def direct (s : Session) (steps : List Step) : Session :=
  s.observeAll (steps.filterMap Step.event?)

/-- A relative name is taken from the directory that the reload names. -/
def Step.rename (filename : Path) : Step → Path
  | .event _ => filename
  | .reload _ base => if filename.isAbsolute then filename else base.join filename

/-- The session goes by a text wherever it is written. -/
def NamesAreText : Path → List Step → Prop
  | _, [] => True
  | filename, .event _ :: rest => NamesAreText filename rest
  | filename, .reload origin base :: rest =>
      IsText filename.bytes ∧ NamesAreText (Step.rename filename (.reload origin base)) rest

/-- The sessions have one manifest, and the same counts where it can show. -/
structure Agree (s t : Session) : Prop where
  manifest : s.manifest = t.manifest
  source : s.source = t.source
  blocks : s.recorder.blocks = t.recorder.blocks
  nodes : ∀ id ∈ t.manifest.nodes.map (·.id), s.recorder.nodes.count id = t.recorder.nodes.count id

namespace Agree

variable {s t u : Session}

theorem refl (s : Session) : Agree s s := ⟨rfl, rfl, rfl, fun _ _ => rfl⟩

theorem trans (hst : Agree s t) (htu : Agree t u) : Agree s u where
  manifest := hst.manifest.trans htu.manifest
  source := hst.source.trans htu.source
  blocks := hst.blocks.trans htu.blocks
  nodes id hid := (hst.nodes id (htu.manifest ▸ hid)).trans (htu.nodes id hid)

theorem recordNode (h : Agree s t) (id count : UInt64) :
    Agree { s with recorder := s.recorder.recordNode id count }
      { t with recorder := t.recorder.recordNode id count } where
  manifest := h.manifest
  source := h.source
  blocks := h.blocks
  nodes j hj := by
    change (s.recorder.nodes.record id count).count j = (t.recorder.nodes.record id count).count j
    rw [Tally.count_record, Tally.count_record]
    split
    · rename_i hkey
      rw [← hkey, h.nodes j hj]
    · exact h.nodes j hj

theorem recordBlock (h : Agree s t) (index count : UInt64) :
    Agree { s with recorder := s.recorder.recordBlock index count }
      { t with recorder := t.recorder.recordBlock index count } where
  manifest := h.manifest
  source := h.source
  blocks := congrArg (fun tally => tally.record index count) h.blocks
  nodes := h.nodes

theorem observe (h : Agree s t) (e : Event) : Agree (s.observe e) (t.observe e) := by
  cases e with
  | visitNode id => exact h.recordNode id 1
  | visitBlock index => exact h.recordBlock index 1
  | recordNode id count => exact h.recordNode id count
  | recordBlock index count => exact h.recordBlock index count

theorem hasVisited (h : Agree s t) {n : Node} (hn : n ∈ t.manifest.nodes) :
    s.recorder.hasVisited n.id = t.recorder.hasVisited n.id := by
  have hcount := h.nodes n.id (List.mem_map.2 ⟨n, hn, rfl⟩)
  rw [Bool.eq_iff_iff, Recorder.hasVisited, Recorder.hasVisited,
    Tally.contains_iff_count_ne_zero, Tally.contains_iff_count_ne_zero, hcount]

theorem sameReach (h : Agree s t) : t.manifest.SameReach s.recorder t.recorder where
  nodes _ hn := h.hasVisited hn
  blocks _ _ index _ := by rw [h.blocks]

theorem seen (h : Agree s t) : s.seen = t.seen := by
  rw [Session.seen, Session.seen, h.manifest]
  exact h.sameReach.seen

theorem missing (h : Agree s t) : s.missing = t.missing := by
  rw [Session.missing, Session.missing, h.manifest]
  exact h.sameReach.missing

theorem nodeTotals (h : Agree s t) : s.nodeTotals = t.nodeTotals := by
  rw [Session.nodeTotals, Session.nodeTotals, h.manifest]
  exact h.sameReach.nodeTotals

theorem blockTotals (h : Agree s t) : s.blockTotals = t.blockTotals := by
  rw [Session.blockTotals, Session.blockTotals, h.manifest]
  exact h.sameReach.blockTotals

theorem snapshot (h : Agree s t) (text : String) : s.snapshot text = t.snapshot text := by
  rw [Session.snapshot, Session.snapshot, h.manifest, h.source]
  exact Snapshot.ofLines_of_sameReach h.sameReach (splitLines text) t.source

/-- The dumps differ in the file name only. -/
theorem ofSession (h : Agree s t) :
    Dump.ofSession s = { Dump.ofSession t with filename := s.filename } := by
  have hvisits : (s.seen.map fun n => (n.id, s.recorder.nodes.count n.id)) =
      t.seen.map fun n => (n.id, t.recorder.nodes.count n.id) := by
    rw [h.seen]
    refine List.map_congr_left fun n hn => ?_
    have hid : n.id ∈ t.manifest.nodes.map (·.id) :=
      List.mem_map.2 ⟨n, ((t.manifest.mem_seen_iff t.recorder n).1 hn).1, rfl⟩
    rw [h.nodes n.id hid]
  unfold Dump.ofSession
  rw [hvisits, h.manifest, h.source, h.blocks]

end Agree

/-- A reload does not fail, and its result agrees with the session before it. -/
theorem reload_agrees {s : Session} (hname : IsText s.filename.bytes) (origin base : Path) :
    ∃ t, s.reload origin base = .ok t ∧ Agree t s ∧
      t.filename = Step.rename s.filename (.reload origin base) := by
  obtain ⟨t, hreplay, hrename, hmanifest, hsource, hblocks, hnodes⟩ := Dump.replay_ofSession s base
  obtain ⟨text, htext⟩ := Dump.exists_text (d := Dump.ofSession s) hname
  refine ⟨t, ?_, ⟨hmanifest, hsource, hblocks, fun id hid => ?_⟩, hrename⟩
  · simp only [Session.reload, htext, Dump.ofText_of_text htext, bind, Except.bind, hreplay]
  · rw [hnodes, if_pos hid]

/-- One step, taken with and without reloads, keeps agreement. -/
theorem step_agrees {s t : Session} (h : Agree s t) {a : Step} {rest : List Step}
    (hnames : NamesAreText s.filename (a :: rest)) :
    ∃ u, step s a = .ok u ∧ Agree u (t.observeAll a.event?.toList) ∧
      u.filename = a.rename s.filename ∧ NamesAreText u.filename rest := by
  cases a with
  | event e => exact ⟨s.observe e, rfl, h.observe e, rfl, hnames⟩
  | reload origin base =>
      obtain ⟨u, hreload, hagree, hname⟩ := reload_agrees hnames.1 origin base
      exact ⟨u, hreload, hagree.trans h, hname, hname ▸ hnames.2⟩

theorem run_agrees {s t : Session} (h : Agree s t) {steps : List Step}
    (hnames : NamesAreText s.filename steps) :
    ∃ u, run s steps = .ok u ∧ Agree u (direct t steps) ∧
      u.filename = steps.foldl Step.rename s.filename := by
  induction steps generalizing s t with
  | nil => exact ⟨s, rfl, h, rfl⟩
  | cons a rest ih =>
      obtain ⟨u, hstep, hagree, hname, hnext⟩ := step_agrees h hnames
      obtain ⟨v, hrun, hrest, hlast⟩ := ih hagree hnext
      have hdirect : direct t (a :: rest) = direct (t.observeAll a.event?.toList) rest := by
        cases a <;> rfl
      refine ⟨v, ?_, ?_, ?_⟩
      · change (step s a >>= fun u => run u rest) = .ok v
        rw [hstep]
        exact hrun
      · rw [hdirect]
        exact hrest
      · rw [List.foldl_cons, hlast, hname]

theorem foldl_rename_of_isAbsolute {filename : Path} (h : filename.isAbsolute = true)
    (steps : List Step) : steps.foldl Step.rename filename = filename := by
  induction steps with
  | nil => rfl
  | cons a rest ih =>
      have hkept : a.rename filename = filename := by
        cases a with
        | event e => rfl
        | reload origin base => exact if_pos h
      rw [List.foldl_cons, hkept, ih]

/-- An absolute name stays, so it is text throughout if it is text at first. -/
theorem namesAreText_of_isAbsolute {filename : Path} (h : filename.isAbsolute = true)
    (htext : IsText filename.bytes) (steps : List Step) : NamesAreText filename steps := by
  induction steps with
  | nil => trivial
  | cons a rest ih =>
      cases a with
      | event e => exact ih
      | reload origin base =>
          refine ⟨htext, ?_⟩
          rw [Step.rename, if_pos h]
          exact ih

/-- All that two sessions can be asked for, apart from their names. -/
structure SameAnswers (s t : Session) : Prop where
  missing : s.missing = t.missing
  seen : s.seen = t.seen
  nodeTotals : s.nodeTotals = t.nodeTotals
  blockTotals : s.blockTotals = t.blockTotals
  snapshot : ∀ text, s.snapshot text = t.snapshot text
  nodeCount : ∀ n ∈ t.manifest.nodes, s.recorder.nodes.count n.id = t.recorder.nodes.count n.id
  blockCount : ∀ index, s.recorder.blocks.count index = t.recorder.blocks.count index
  dump : Dump.ofSession s = { Dump.ofSession t with filename := s.filename }

theorem Agree.sameAnswers {s t : Session} (h : Agree s t) : SameAnswers s t where
  missing := h.missing
  seen := h.seen
  nodeTotals := h.nodeTotals
  blockTotals := h.blockTotals
  snapshot := h.snapshot
  nodeCount n hn := h.nodes n.id (List.mem_map.2 ⟨n, hn, rfl⟩)
  blockCount index := by rw [h.blocks]
  dump := h.ofSession

/-- Reloads cannot be noticed. Wherever they stand in a run, as long as the session goes by a text
none of them fails and the session answers as if they had been left out; only a relative name is
resolved, and an absolute one stays, in the session as in its dump. -/
theorem run_answers_as_direct (s : Session) {steps : List Step}
    (hnames : NamesAreText s.filename steps) :
    ∃ t, run s steps = .ok t ∧ SameAnswers t (direct s steps) ∧
      t.filename = steps.foldl Step.rename s.filename ∧
      (s.filename.isAbsolute = true →
        t.filename = s.filename ∧ Dump.ofSession t = Dump.ofSession (direct s steps)) := by
  obtain ⟨t, hrun, hagree, hname⟩ := run_agrees (.refl s) hnames
  refine ⟨t, hrun, hagree.sameAnswers, hname, fun habsolute => ?_⟩
  have hkept : t.filename = s.filename := hname.trans (foldl_rename_of_isAbsolute habsolute steps)
  have hdirect : (Dump.ofSession (direct s steps)).filename = s.filename := by
    rw [direct, Session.observeAll_eq]
    rfl
  refine ⟨hkept, ?_⟩
  rw [hagree.ofSession, hkept, ← hdirect]

/-- A session of one node, under the given name. -/
def sketched (filename : Path) : Session :=
  .start filename ⟨[⟨1, ⟨0, 0, 0, 4⟩, none⟩], .byParent, List.nodup_singleton _⟩ "f();"

/-- Reloads between two visits and behind them. -/
def interrupted : List Step :=
  [.event (.visitNode 1), .reload "a.cov.json" "/p", .event (.visitNode 1),
    .reload "a.cov.json" "/q"]

/-- Both visits are counted; a relative name is taken from the first base, an absolute one stays. -/
theorem run_answers_as_direct_interrupted :
    (NamesAreText (sketched "a.js").filename interrupted ∧
      ∃ t, run (sketched "a.js") interrupted = .ok t ∧ t.filename = "/p/a.js" ∧
        t.recorder.nodes.count 1 = 2) ∧
    NamesAreText (sketched "/a.js").filename interrupted ∧
      ∃ t, run (sketched "/a.js") interrupted = .ok t ∧ t.filename = "/a.js" ∧
        t.recorder.nodes.count 1 = 2 := by
  have hrelative : NamesAreText (sketched "a.js").filename interrupted :=
    ⟨⟨"a.js", rfl⟩, ⟨"/p/a.js", by decide +kernel⟩, trivial⟩
  have habsolute : NamesAreText (sketched "/a.js").filename interrupted :=
    namesAreText_of_isAbsolute (by decide +kernel) ⟨"/a.js", rfl⟩ interrupted
  obtain ⟨t, hrun, hsame, hname, -⟩ := run_answers_as_direct (sketched "a.js") hrelative
  obtain ⟨u, hrun', hsame', -, hkept⟩ := run_answers_as_direct (sketched "/a.js") habsolute
  refine ⟨⟨hrelative, t, hrun, ?_, ?_⟩, habsolute, u, hrun', ?_, ?_⟩
  · rw [hname]
    decide +kernel
  · exact (hsame.nodeCount _ List.mem_cons_self).trans (by decide +kernel)
  · exact (hkept (by decide +kernel)).1
  · exact (hsame'.nodeCount _ List.mem_cons_self).trans (by decide +kernel)

end Reload

end Coverage
