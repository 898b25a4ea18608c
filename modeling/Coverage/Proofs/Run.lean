import Coverage.Proofs.OrderedMap
import Coverage.Proofs.Path
import Coverage.Run
import Mathlib.Data.Finset.Card

/-!
Runs of many files. Sessions are registered and events are addressed to paths, in any
order. What the run then holds for a file follows from the steps that name this file:
its last registration, and the events that came for it since. The sessions are listed
in the order of their paths, one for each file that was ever registered.
-/
namespace Coverage.Run

inductive Step where
  | register (s : Session)
  | observe (p : Path) (e : Event)

def step (r : Run) : Step → Run
  | .register s => r.register s
  | .observe p e => r.observe p e

def stepAll (r : Run) (steps : List Step) : Run := steps.foldl step r

namespace Step

def registered? : Step → Option (List Component)
  | register s => some s.filename.components
  | observe _ _ => none

/-- The event, if it is addressed to the file of these components. -/
def eventFor? (file : List Component) : Step → Option Event
  | register _ => none
  | observe p e => if p.components = file then some e else none

/-- What the step makes of the session that is held for a file. -/
def apply (file : List Component) (held : Option Session) : Step → Option Session
  | register s => if s.filename.components = file then some s else held
  | observe p e => if p.components = file then held.map (·.observe e) else held

end Step

/-- The files for which sessions were registered, one after the other. -/
def registeredFiles (steps : List Step) : List (List Component) :=
  steps.filterMap Step.registered?

/-- The session is the last one that was registered for the file, after the events that
were addressed to the file since then. -/
def LastRegistered (steps : List Step) (file : List Component) (s : Session) : Prop :=
  ∃ before first after, steps = before ++ .register first :: after ∧
    first.filename.components = file ∧ file ∉ registeredFiles after ∧
    s = first.observeAll (after.filterMap (Step.eventFor? file))

/-- What a run holds after the steps, file by file. -/
structure HoldsEach (steps : List Step) (r : Run) : Prop where
  none_iff : ∀ p, r.session? p = none ↔ p.components ∉ registeredFiles steps
  some_iff : ∀ p s, r.session? p = some s ↔ LastRegistered steps p.components s
  size : r.size = (registeredFiles steps).toFinset.card
  mem_list : ∀ s, s ∈ r.list ↔ r.session? s.filename = some s
  ascending : r.list.Pairwise fun s t => compare s.filename t.filename = .lt
  keyed : ∀ e ∈ r.sessions.entries, e.2.filename.components = e.1

/-- Every session is held under the components of its name. -/
def Keyed (r : Run) : Prop :=
  ∀ file s, r.sessions.find? file = some s → s.filename.components = file

theorem Keyed.of_mem {r : Run} (h : r.Keyed) {e : List Component × Session}
    (he : e ∈ r.sessions.entries) : e.2.filename.components = e.1 :=
  h e.1 e.2 ((r.sessions.find?_eq_some_iff e.1 e.2).2 he)

theorem Keyed.mem_list_iff {r : Run} (h : r.Keyed) (s : Session) :
    s ∈ r.list ↔ r.session? s.filename = some s := by
  rw [list, OrderedMap.values, List.mem_map, session?, OrderedMap.find?_eq_some_iff]
  constructor
  · rintro ⟨e, he, rfl⟩
    rwa [h.of_mem he]
  · intro hs
    exact ⟨_, hs, rfl⟩

theorem Keyed.ascending {r : Run} (h : r.Keyed) :
    r.list.Pairwise fun s t => compare s.filename t.filename = .lt := by
  rw [list, OrderedMap.values, List.pairwise_map]
  refine r.sessions.ascending.imp_of_mem fun {a b} ha hb hlt => ?_
  rw [← h.of_mem ha, ← h.of_mem hb] at hlt
  exact hlt

section Step

variable {steps : List Step} {file : List Component}

/-- A step changes what is held for the file that it names, and for no other. -/
theorem find?_step (r : Run) (a : Step) (file : List Component) :
    (r.step a).sessions.find? file = a.apply file (r.sessions.find? file) := by
  cases a with
  | register s => simp only [step, register, Step.apply, OrderedMap.find?_insert, eq_comm]
  | observe p e =>
      rw [step, observe, update, Step.apply]
      by_cases hfile : p.components = file
      · subst hfile
        cases hheld : r.sessions.find? p.components with
        | none => simp [session?, hheld]
        | some s => simp [session?, hheld]
      · cases hheld : r.sessions.find? p.components with
        | none => simp [session?, hheld, hfile]
        | some s => simp [session?, hheld, hfile, Ne.symm hfile]

theorem find?_stepAll (r : Run) (steps : List Step) (file : List Component) :
    (r.stepAll steps).sessions.find? file =
      steps.foldl (Step.apply file) (r.sessions.find? file) := by
  induction steps generalizing r with
  | nil => rfl
  | cons a rest ih =>
      rw [List.foldl_cons, ← find?_step]
      exact ih (r.step a)

theorem Keyed.step {r : Run} (h : r.Keyed) (a : Step) : (r.step a).Keyed := by
  intro file s hfound
  rw [find?_step] at hfound
  cases a with
  | register t =>
      rw [Step.apply] at hfound
      split at hfound
      · rename_i hfile
        exact Option.some.inj hfound ▸ hfile
      · exact h file s hfound
  | observe p e =>
      rw [Step.apply] at hfound
      split at hfound
      · obtain ⟨t, ht, rfl⟩ := Option.map_eq_some_iff.1 hfound
        exact h file t ht
      · exact h file s hfound

theorem Keyed.stepAll {r : Run} (h : r.Keyed) (steps : List Step) : (r.stepAll steps).Keyed := by
  induction steps generalizing r with
  | nil => exact h
  | cons a rest ih => exact ih (h.step a)

/-- As long as a file is not registered anew, its session takes in its events. -/
theorem foldl_apply_of_not_mem (h : file ∉ registeredFiles steps) (held : Option Session) :
    steps.foldl (Step.apply file) held =
      held.map (·.observeAll (steps.filterMap (Step.eventFor? file))) := by
  induction steps generalizing held with
  | nil => cases held <;> rfl
  | cons a rest ih =>
      cases a with
      | register s =>
          have hparts : file ∉ s.filename.components :: registeredFiles rest := h
          rw [List.mem_cons, not_or] at hparts
          rw [List.foldl_cons, Step.apply, if_neg (Ne.symm hparts.1), ih hparts.2]
          rfl
      | observe p e =>
          rw [List.foldl_cons, Step.apply, ih h, List.filterMap_cons, Step.eventFor?]
          split
          · rw [Option.map_map]
            rfl
          · rfl

/-- Of the registrations of a file one is the last. -/
theorem exists_last_registration (h : file ∈ registeredFiles steps) :
    ∃ before s after, steps = before ++ .register s :: after ∧ s.filename.components = file ∧
      file ∉ registeredFiles after := by
  induction steps with
  | nil => cases h
  | cons a rest ih =>
      by_cases hrest : file ∈ registeredFiles rest
      · obtain ⟨before, s, after, rfl, hs⟩ := ih hrest
        exact ⟨a :: before, s, after, rfl, hs⟩
      · obtain ⟨b, hb, hfile⟩ := List.mem_filterMap.1 h
        rcases List.mem_cons.1 hb with rfl | hb
        · cases b with
          | register s => exact ⟨[], s, rest, rfl, Option.some.inj hfile, hrest⟩
          | observe p e => cases hfile
        · exact absurd (List.mem_filterMap.2 ⟨b, hb, hfile⟩) hrest

end Step

section Empty

theorem keyed_empty : empty.Keyed := by
  intro file s hfound
  cases hfound

theorem find?_of_lastRegistered {steps : List Step} {file : List Component} {s : Session}
    (h : LastRegistered steps file s) : (empty.stepAll steps).sessions.find? file = some s := by
  obtain ⟨before, first, after, rfl, hfile, hlast, rfl⟩ := h
  rw [find?_stepAll, List.foldl_append, List.foldl_cons, Step.apply, if_pos hfile,
    foldl_apply_of_not_mem hlast]
  rfl

theorem find?_eq_none_iff (steps : List Step) (file : List Component) :
    (empty.stepAll steps).sessions.find? file = none ↔ file ∉ registeredFiles steps := by
  constructor
  · intro hnone hregistered
    obtain ⟨before, first, after, hsplit, hfile, hlast⟩ := exists_last_registration hregistered
    rw [find?_of_lastRegistered ⟨before, first, after, hsplit, hfile, hlast, rfl⟩] at hnone
    cases hnone
  · intro habsent
    rw [find?_stepAll, foldl_apply_of_not_mem habsent]
    rfl

theorem find?_eq_some_iff (steps : List Step) (file : List Component) (s : Session) :
    (empty.stepAll steps).sessions.find? file = some s ↔ LastRegistered steps file s := by
  refine ⟨fun hfound => ?_, find?_of_lastRegistered⟩
  have hregistered : file ∈ registeredFiles steps := by
    by_contra habsent
    rw [(find?_eq_none_iff steps file).2 habsent] at hfound
    cases hfound
  obtain ⟨before, first, after, hsplit, hfile, hlast⟩ := exists_last_registration hregistered
  have hheld : LastRegistered steps file _ := ⟨before, first, after, hsplit, hfile, hlast, rfl⟩
  rw [find?_of_lastRegistered hheld] at hfound
  exact Option.some.inj hfound ▸ hheld

/-- There are as many sessions as files that were registered. -/
theorem size_stepAll (steps : List Step) :
    (empty.stepAll steps).size = (registeredFiles steps).toFinset.card := by
  have hkeys : (empty.stepAll steps).sessions.keys.toFinset = (registeredFiles steps).toFinset := by
    ext file
    rw [List.mem_toFinset, List.mem_toFinset, OrderedMap.mem_keys_iff,
      ← Option.ne_none_iff_exists', ne_eq, find?_eq_none_iff, Classical.not_not]
  rw [← hkeys, List.toFinset_card_of_nodup (OrderedMap.nodup_keys _)]
  exact (List.length_map _).symm

/-- Whatever the order of the steps, files do not interfere. -/
theorem stepAll_holdsEach (steps : List Step) : HoldsEach steps (empty.stepAll steps) where
  none_iff p := find?_eq_none_iff steps p.components
  some_iff p s := find?_eq_some_iff steps p.components s
  size := size_stepAll steps
  mem_list := (keyed_empty.stepAll steps).mem_list_iff
  ascending := (keyed_empty.stepAll steps).ascending
  keyed _ he := (keyed_empty.stepAll steps).of_mem he

end Empty

end Coverage.Run
