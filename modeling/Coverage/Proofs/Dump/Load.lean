import Coverage.Dump.Load
import Coverage.Proofs.Dump.Replay
import Coverage.Proofs.FileTree
import Coverage.Proofs.Path.Parent

/-!
What loading a dump gives. The session has what the dump holds and nothing besides.
Under another spelling of the same components a dump gives the same, except for the
spelling of the paths that the session or the failure names.
-/
namespace Coverage

/-- The session has the manifest, the source and the visits of the dump, and its name, which is
taken from the base if it is relative. -/
structure Dump.Describes (d : Dump) (base : Path) (s : Session) : Prop where
  filename : s.filename = if d.filename.isAbsolute then d.filename else base.join d.filename
  nodes : s.manifest.nodes = d.nodes
  layout : s.manifest.layout = d.layout
  source : s.source = d.source.getD ""
  nodeVisits : ∀ id, s.recorder.nodes.count id = (d.nodeVisits.find? id).getD 0
  blockVisits : ∀ index, s.recorder.blocks.count index = (d.blockVisits.find? index).getD 0

theorem Dump.replay_eq_ok_iff (d : Dump) (base : Path) (s : Session) :
    d.replay base = .ok s ↔ d.Describes base s := by
  constructor
  · intro h
    by_cases hnodup : (d.nodes.map (·.id)).Nodup
    · rw [replay_of_nodup d base hnodup] at h
      cases h
      exact ⟨rfl, rfl, rfl, rfl, Visits.count_tally d.nodeVisits, Visits.count_tally d.blockVisits⟩
    · obtain ⟨id, hid⟩ := Manifest.ofNodes_of_not_nodup d.layout hnodup
      rw [replay, hid] at h
      cases h
  · intro h
    have hnodup : (d.nodes.map (·.id)).Nodup := h.nodes ▸ s.manifest.distinct
    have hmanifest : s.manifest = ⟨d.nodes, d.layout, hnodup⟩ :=
      Manifest.eq_of_nodes_layout h.nodes h.layout
    have hnodes : s.recorder.nodes = d.nodeVisits.tally := Tally.ext_count fun id => by
      rw [h.nodeVisits, Visits.count_tally]
    have hblocks : s.recorder.blocks = d.blockVisits.tally := Tally.ext_count fun index => by
      rw [h.blockVisits, Visits.count_tally]
    have hname : s.filename = d.filenameIn base := h.filename
    rw [replay_of_nodup d base hnodup, ← hname, ← hmanifest, ← hnodes, ← hblocks, ← h.source]

namespace Workspace

/-- The session of the dump in the file that the path leads to. -/
def IsSessionOf (w : Workspace) (p : Path) (s : Session) : Prop :=
  ∃ text dump, w.readText p = .ok text ∧ Dump.ofText text p = .ok dump ∧
    dump.Describes (p.parent?.getD ".") s

theorem load_eq_ok_iff (w : Workspace) (p : Path) (s : Session) :
    w.load p = .ok s ↔ w.IsSessionOf p s := by
  rw [load, IsSessionOf]
  cases hread : w.readText p with
  | error why => simp
  | ok text =>
      cases hdump : Dump.ofText text p with
      | error failure => simp [hdump, bind, Except.bind]
      | ok dump => simp [hdump, bind, Except.bind, Dump.replay_eq_ok_iff]

end Workspace

/-- Sessions that differ in the spelling of their file's name at most. -/
structure Session.Alike (s t : Session) : Prop where
  filename : s.filename.components = t.filename.components
  manifest : s.manifest = t.manifest
  recorder : s.recorder = t.recorder
  source : s.source = t.source

/-- Failures that differ in the spelling of the dump's path at most. -/
inductive Failure.Alike : Failure → Failure → Prop where
  | unreadable {p q : Path} (h : p.components = q.components) (why : Obstacle) :
      Alike (.unreadable p why) (.unreadable q why)
  | malformedDump {p q : Path} (h : p.components = q.components) (text : String) :
      Alike (.malformedDump p text) (.malformedDump q text)
  | refl (e : Failure) : Alike e e

/-- Both succeed with related values, or both fail alike. -/
inductive SameOutcome {α : Type} (R : α → α → Prop) :
    Except Failure α → Except Failure α → Prop where
  | ok {a b : α} (h : R a b) : SameOutcome R (.ok a) (.ok b)
  | error {e e' : Failure} (h : e.Alike e') : SameOutcome R (.error e) (.error e')

theorem SameOutcome.bind {α β : Type} {R : α → α → Prop} {S : β → β → Prop}
    {x y : Except Failure α} {f g : α → Except Failure β} (h : SameOutcome R x y)
    (hnext : ∀ a b, R a b → SameOutcome S (f a) (g b)) : SameOutcome S (x >>= f) (y >>= g) := by
  cases h with
  | ok h => exact hnext _ _ h
  | error h => exact .error h

theorem Dump.ofText_alike (text : String) {p q : Path} (h : p.components = q.components) :
    SameOutcome (· = ·) (ofText text p) (ofText text q) := by
  unfold ofText
  cases (Json.ofText? text).bind ofJson? with
  | none => exact .error (.malformedDump h text)
  | some dump => exact .ok rfl

theorem Dump.replay_alike (d : Dump) {base base' : Path} (h : base.components = base'.components) :
    SameOutcome Session.Alike (d.replay base) (d.replay base') := by
  by_cases hnodup : (d.nodes.map (·.id)).Nodup
  · rw [replay_of_nodup d base hnodup, replay_of_nodup d base' hnodup]
    refine .ok ⟨?_, rfl, rfl, rfl⟩
    dsimp only [filenameIn]
    split
    · rfl
    · exact Path.join_congr h rfl
  · obtain ⟨id, hid⟩ := Manifest.ofNodes_of_not_nodup d.layout hnodup
    rw [replay, replay, hid]
    exact .error (.refl _)

/-- A dump loads alike under all spellings of its path. -/
theorem Workspace.load_alike {w : Workspace} (hplain : w.tree.IsPlain) {p q : Path}
    {place place' : Place} (hp : w.resolve p = .ok place) (hq : w.resolve q = .ok place')
    (h : p.components = q.components) : SameOutcome Session.Alike (w.load p) (w.load q) := by
  have hbase : (p.parent?.getD ".").components = (q.parent?.getD ".").components := by
    have hparent := Path.parent?_congr h
    cases hp : p.parent? <;> cases hq : q.parent? <;> simp_all
  unfold load
  rw [readText_congr hplain hp hq h]
  cases w.readText q with
  | error why => exact .error (.unreadable h why)
  | ok text =>
      refine (Dump.ofText_alike text h).bind fun d e heq => ?_
      subst heq
      exact d.replay_alike hbase

end Coverage
