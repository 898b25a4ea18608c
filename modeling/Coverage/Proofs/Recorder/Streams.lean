import Coverage.Proofs.Reach
import Mathlib.Data.Set.Card

/-!
What a recorder holds after a stream of events. The nodes' tally takes the events of
nodes and no others, the blocks' tally those of blocks. A count is the sum of what the
stream adds to its number, cut off at the largest 64-bit number, and a sum depends
neither on the order of the amounts nor on how they are grouped. So streams with the
same sums leave the same recorder. As long as no visit meets a full counter, visits may
be counted by plain additions.
-/
namespace Coverage

namespace Tally

/-- The counter is not full. -/
def HasRoom (t : Tally) (key : UInt64) : Prop := (t.count key).toNat + 1 < UInt64.size

instance (t : Tally) (key : UInt64) : Decidable (t.HasRoom key) :=
  inferInstanceAs (Decidable ((t.count key).toNat + 1 < UInt64.size))

theorem HasRoom.positive {t : Tally} {key : UInt64} (h : t.HasRoom key) :
    ∀ e ∈ (t.counts.alter key fun held => held.getD 0 + 1).entries, e.2 ≠ 0 := by
  intro e he
  rcases OrderedMap.mem_alterEntries he with he | ⟨_, he⟩ | ⟨a, ha, hkey, he⟩
  · exact t.positive e he
  · rw [he]
    decide
  · have hfound : t.counts.find? key = some a := by
      rw [Std.LawfulEqOrd.compare_eq_iff_eq.1 hkey]
      exact (t.counts.find?_eq_some_iff e.1 a).2 ha
    rw [HasRoom, count, hfound, Option.getD_some] at h
    rw [he, Option.getD_some, ne_eq, ← UInt64.toNat_inj, UInt64.toNat_add, UInt64.toNat_one,
      UInt64.toNat_zero]
    simp only [UInt64.size] at h
    omega

/-- One more visit by an addition that knows no bound; a full counter is beyond it. -/
def visit? (t : Tally) (key : UInt64) : Option Tally :=
  if h : t.HasRoom key then some ⟨t.counts.alter key fun held => held.getD 0 + 1, h.positive⟩
  else none

/-- The counts are the sums, as far as a counter reaches, and the numbers held are those
with a count. -/
structure Counts (t : Tally) (sum : UInt64 → Nat) : Prop where
  count : ∀ key, (t.count key).toNat = min (UInt64.size - 1) (sum key)
  contains : ∀ key, t.contains key = true ↔ 0 < t.count key
  keys : ∀ key, key ∈ t.keys ↔ 0 < sum key
  distinct : t.keys.Nodup
  size : t.size = {key | 0 < sum key}.ncard

theorem toNat_count_record (t : Tally) (key amount j : UInt64) :
    ((t.record key amount).count j).toNat =
      min (UInt64.size - 1) ((t.count j).toNat + if key = j then amount.toNat else 0) := by
  rw [count_record]
  by_cases hkey : j = key
  · rw [if_pos hkey, if_pos hkey.symm, toNat_addSaturating, hkey]
  · have hcount : (t.count j).toNat < UInt64.size := (t.count j).toNat_lt
    rw [if_neg hkey, if_neg (Ne.symm hkey)]
    omega

/-- Below the bound the addition that stops there is the plain one. -/
theorem visit?_eq_some_iff (t u : Tally) (key : UInt64) :
    t.visit? key = some u ↔ t.HasRoom key ∧ t.record key 1 = u := by
  unfold visit?
  split
  · rename_i hroom
    rw [Option.some_inj, and_iff_right hroom]
    refine Eq.congr_left (ext_count fun j => ?_)
    rw [count_record]
    simp only [count, OrderedMap.find?_alter_of_eq]
    split
    · exact (if_pos hroom).symm
    · rfl
  · rename_i hfull
    simp [hfull]

theorem contains_iff_count_pos (t : Tally) (key : UInt64) :
    t.contains key = true ↔ 0 < t.count key := by
  rw [contains_iff_count_ne_zero]
  exact UInt64.pos_iff_ne_zero.symm

theorem counts_of_count {t : Tally} {sum : UInt64 → Nat}
    (h : ∀ key, (t.count key).toNat = min (UInt64.size - 1) (sum key)) : t.Counts sum := by
  have hkeys : ∀ key, key ∈ t.keys ↔ 0 < sum key := by
    intro key
    have hkey := h key
    rw [mem_keys_iff_contains, contains_iff_count_pos, UInt64.lt_iff_toNat_lt, hkey]
    simp only [UInt64.size, UInt64.toNat_zero]
    omega
  have hdistinct : t.keys.Nodup := t.counts.nodup_keys
  have hset : {key | 0 < sum key} = (t.keys.toFinset : Set UInt64) := by
    ext key
    simp [hkeys]
  refine ⟨h, t.contains_iff_count_pos, hkeys, hdistinct, ?_⟩
  rw [hset, Set.ncard_coe_finset, List.toFinset_card_of_nodup hdistinct]
  exact (List.length_map _).symm

theorem Counts.unique {t u : Tally} {sum : UInt64 → Nat} (ht : t.Counts sum) (hu : u.Counts sum) :
    t = u :=
  ext_count fun key => UInt64.toNat_inj.1 ((ht.count key).trans (hu.count key).symm)

end Tally

namespace Event

/-- One for every visit of the number, and the amount of every record. -/
def sum (counter? : Event → Option UInt64) (events : List Event) (key : UInt64) : Nat :=
  (events.map fun e => if counter? e = some key then e.amount.toNat else 0).sum

/-- The second stream has the events of the first in another order, or has visits of one
node or block gathered into one record. -/
inductive Regrouped : List Event → List Event → Prop where
  | reordered {events others : List Event} (h : events.Perm others) : Regrouped events others
  | nodeVisits (id count : UInt64) (rest : List Event) :
      Regrouped (List.replicate count.toNat (visitNode id) ++ rest) (recordNode id count :: rest)
  | blockVisits (index count : UInt64) (rest : List Event) :
      Regrouped (List.replicate count.toNat (visitBlock index) ++ rest)
        (recordBlock index count :: rest)
  | trans {first second third : List Event} (h : Regrouped first second)
      (h' : Regrouped second third) : Regrouped first third

variable (counter? : Event → Option UInt64)

theorem sum_cons (e : Event) (events : List Event) (key : UInt64) :
    sum counter? (e :: events) key =
      (if counter? e = some key then e.amount.toNat else 0) + sum counter? events key :=
  List.sum_cons

theorem sum_append (first next : List Event) (key : UInt64) :
    sum counter? (first ++ next) key = sum counter? first key + sum counter? next key := by
  rw [sum, List.map_append, List.sum_append]
  rfl

theorem sum_replicate (n : Nat) (e : Event) (key : UInt64) :
    sum counter? (List.replicate n e) key =
      n * if counter? e = some key then e.amount.toNat else 0 := by
  rw [sum, List.map_replicate, List.sum_replicate_nat]

theorem sum_pos_iff (events : List Event) (key : UInt64) :
    0 < sum counter? events key ↔ ∃ e ∈ events, counter? e = some key ∧ e.amount ≠ 0 := by
  induction events with
  | nil => simp [sum]
  | cons e rest ih =>
      have hamount : 0 < e.amount.toNat ↔ e.amount ≠ 0 := by
        rw [Nat.pos_iff_ne_zero, ne_eq, ne_eq, ← UInt64.toNat_inj, UInt64.toNat_zero]
      rw [sum_cons, Nat.add_pos_iff_pos_or_pos, ih, List.exists_mem_cons_iff]
      refine or_congr_left ?_
      split
      · rename_i hkey
        exact hamount.trans (and_iff_right hkey).symm
      · rename_i hkey
        simp [hkey]

/-- Events of other counters add nothing. -/
theorem sum_filter (events : List Event) :
    sum counter? (events.filter fun e => (counter? e).isSome) = sum counter? events := by
  funext key
  induction events with
  | nil => rfl
  | cons e rest ih =>
      cases hcounter : counter? e with
      | some k => rw [List.filter_cons_of_pos (by simp [hcounter]), sum_cons, sum_cons, ih]
      | none =>
          have hother : counter? e ≠ some key := by simp [hcounter]
          rw [List.filter_cons_of_neg (by simp [hcounter]), sum_cons, if_neg hother, ih,
            Nat.zero_add]

/-- Visits and records of one number count for the same counter, so regrouping them
leaves all sums. -/
theorem Regrouped.sum_eq {first second : List Event} (h : Regrouped first second)
    (hnodes : ∀ id count, counter? (visitNode id) = counter? (recordNode id count))
    (hblocks : ∀ index count, counter? (visitBlock index) = counter? (recordBlock index count)) :
    sum counter? first = sum counter? second := by
  funext key
  induction h with
  | reordered h => exact (h.map _).sum_eq
  | nodeVisits id count rest =>
      rw [sum_append, sum_replicate, sum_cons, hnodes id count]
      simp [amount]
  | blockVisits index count rest =>
      rw [sum_append, sum_replicate, sum_cons, hblocks index count]
      simp [amount]
  | trans _ _ ih ih' => exact ih.trans ih'

end Event

namespace Tally

variable (counter? : Event → Option UInt64)

/-- The tally after an event, if it counts the events of this kind. -/
def observe (t : Tally) (e : Event) : Tally :=
  match counter? e with
  | some key => t.record key e.amount
  | none => t

def observeAll (t : Tally) (events : List Event) : Tally := events.foldl (observe counter?) t

theorem toNat_count_observe (t : Tally) (e : Event) (key : UInt64) :
    ((t.observe counter? e).count key).toNat = min (UInt64.size - 1)
      ((t.count key).toNat + if counter? e = some key then e.amount.toNat else 0) := by
  have hcount : (t.count key).toNat < UInt64.size := (t.count key).toNat_lt
  unfold observe
  split
  · rename_i named hnamed
    rw [toNat_count_record, hnamed]
    simp only [Option.some_inj]
  · rename_i hnone
    rw [hnone, if_neg (by simp)]
    omega

/-- Cutting off after each amount is cutting off once. -/
theorem toNat_count_observeAll (t : Tally) (events : List Event) (key : UInt64) :
    ((t.observeAll counter? events).count key).toNat =
      min (UInt64.size - 1) ((t.count key).toNat + Event.sum counter? events key) := by
  induction events generalizing t with
  | nil =>
      have hcount : (t.count key).toNat < UInt64.size := (t.count key).toNat_lt
      show (t.count key).toNat = min (UInt64.size - 1) ((t.count key).toNat + 0)
      omega
  | cons e rest ih =>
      show (((t.observe counter? e).observeAll counter? rest).count key).toNat = _
      rw [ih, toNat_count_observe, Event.sum_cons]
      omega

theorem counts_observeAll (events : List Event) :
    (empty.observeAll counter? events).Counts (Event.sum counter? events) := by
  refine counts_of_count fun key => ?_
  rw [toNat_count_observeAll]
  exact congrArg _ (Nat.zero_add _)

theorem observeAll_congr {events others : List Event}
    (h : Event.sum counter? events = Event.sum counter? others) :
    empty.observeAll counter? events = empty.observeAll counter? others := by
  have hothers := counts_observeAll counter? others
  rw [← h] at hothers
  exact (counts_observeAll counter? events).unique hothers

end Tally

namespace Recorder

/-- The event does not visit a full counter. -/
def HasRoom (r : Recorder) : Event → Prop
  | .visitNode id => r.nodes.HasRoom id
  | .visitBlock index => r.blocks.HasRoom index
  | .recordNode _ _ | .recordBlock _ _ => True

/-- The recorder after an event, where visits are plain additions. -/
def advance? (r : Recorder) : Event → Option Recorder
  | .visitNode id => (r.nodes.visit? id).map fun t => { r with nodes := t }
  | .visitBlock index => (r.blocks.visit? index).map fun t => { r with blocks := t }
  | .recordNode id count => some (r.recordNode id count)
  | .recordBlock index count => some (r.recordBlock index count)

def advanceAll? (r : Recorder) (events : List Event) : Option Recorder := events.foldlM advance? r

/-- No visit of the stream meets a full counter. -/
def NeverFull (r : Recorder) (events : List Event) : Prop :=
  ∀ before e after, events = before ++ e :: after → (r.observeAll before).HasRoom e

/-- What the events of a stream leave in a recorder that starts empty. -/
structure Reflects (r : Recorder) (events : List Event) : Prop where
  /-- Plain additions lead to the same recorder, unless some visit meets a full counter. -/
  plain : ∀ s, empty.advanceAll? events = some s ↔ empty.NeverFull events ∧ r = s
  nodes : r.nodes.Counts (Event.sum Event.node? events)
  blocks : r.blocks.Counts (Event.sum Event.block? events)
  nodes_alone : r.nodes = (empty.observeAll (events.filter (·.node?.isSome))).nodes
  blocks_alone : r.blocks = (empty.observeAll (events.filter (·.block?.isSome))).blocks
  regrouped : ∀ others, Event.Regrouped events others → empty.observeAll others = r
  seen : ∀ m : Manifest, m.seen r =
    m.nodes.filter fun n => ∃ e ∈ events, e.node? = some n.id ∧ e.amount ≠ 0
  missing : ∀ m : Manifest, m.missing r =
    m.nodes.filter fun n => ¬ ∃ e ∈ events, e.node? = some n.id ∧ e.amount ≠ 0

theorem advance?_eq_some_iff (r s : Recorder) (e : Event) :
    r.advance? e = some s ↔ r.HasRoom e ∧ r.observe e = s := by
  cases e with
  | visitNode _ | visitBlock _ =>
      simp only [advance?, Option.map_eq_some_iff, Tally.visit?_eq_some_iff]
      constructor
      · rintro ⟨t, ⟨hroom, rfl⟩, rfl⟩
        exact ⟨hroom, rfl⟩
      · rintro ⟨hroom, rfl⟩
        exact ⟨_, ⟨hroom, rfl⟩, rfl⟩
  | recordNode _ _ | recordBlock _ _ => exact Option.some_inj.trans (and_iff_right trivial).symm

theorem neverFull_cons (r : Recorder) (e : Event) (rest : List Event) :
    r.NeverFull (e :: rest) ↔ r.HasRoom e ∧ (r.observe e).NeverFull rest := by
  constructor
  · intro h
    refine ⟨h [] e rest rfl, fun before d after hrest => ?_⟩
    exact h (e :: before) d after (congrArg (List.cons e) hrest)
  · rintro ⟨hroom, hrest⟩ before d after h
    cases before with
    | nil =>
        cases h
        exact hroom
    | cons first others =>
        cases h
        exact hrest others d after rfl

theorem advanceAll?_eq_some_iff (r s : Recorder) (events : List Event) :
    r.advanceAll? events = some s ↔ r.NeverFull events ∧ r.observeAll events = s := by
  induction events generalizing r with
  | nil =>
      refine Option.some_inj.trans (and_iff_right ?_).symm
      intro before e after h
      simp at h
  | cons e rest ih =>
      have hstep : r.advanceAll? (e :: rest) = some s ↔
          r.HasRoom e ∧ (r.observe e).advanceAll? rest = some s := by
        simp only [advanceAll?, List.foldlM_cons, Option.bind_eq_bind, Option.bind_eq_some_iff,
          advance?_eq_some_iff, and_assoc, exists_and_left, exists_eq_left']
      rw [hstep, ih, neverFull_cons, and_assoc]
      rfl

/-- The two tallies of a recorder go their own ways. -/
theorem observeAll_eq_tallies (r : Recorder) (events : List Event) :
    r.observeAll events =
      ⟨r.nodes.observeAll Event.node? events, r.blocks.observeAll Event.block? events⟩ := by
  induction events generalizing r with
  | nil => rfl
  | cons e rest ih => cases e <;> exact ih _

theorem hasVisited_observeAll_iff (events : List Event) (id : UInt64) :
    (empty.observeAll events).hasVisited id = true ↔
      ∃ e ∈ events, e.node? = some id ∧ e.amount ≠ 0 := by
  rw [observeAll_eq_tallies, ← Event.sum_pos_iff, ← (Tally.counts_observeAll _ events).keys,
    Tally.mem_keys_iff_contains]
  rfl

/-- Whatever the stream, and in whatever order its events come. -/
theorem observeAll_reflects (events : List Event) : (empty.observeAll events).Reflects events where
  plain s := advanceAll?_eq_some_iff empty s events
  nodes := by
    rw [observeAll_eq_tallies]
    exact Tally.counts_observeAll Event.node? events
  blocks := by
    rw [observeAll_eq_tallies]
    exact Tally.counts_observeAll Event.block? events
  nodes_alone := by
    rw [observeAll_eq_tallies, observeAll_eq_tallies]
    exact Tally.observeAll_congr Event.node? (Event.sum_filter Event.node? events).symm
  blocks_alone := by
    rw [observeAll_eq_tallies, observeAll_eq_tallies]
    exact Tally.observeAll_congr Event.block? (Event.sum_filter Event.block? events).symm
  regrouped others h := by
    have hnodes := h.sum_eq Event.node? (fun _ _ => rfl) fun _ _ => rfl
    have hblocks := h.sum_eq Event.block? (fun _ _ => rfl) fun _ _ => rfl
    rw [observeAll_eq_tallies, observeAll_eq_tallies]
    exact congrArg₂ Recorder.mk (Tally.observeAll_congr Event.node? hnodes.symm)
      (Tally.observeAll_congr Event.block? hblocks.symm)
  seen m := by
    refine List.filter_congr fun n _ => ?_
    rw [Bool.eq_iff_iff, hasVisited_observeAll_iff, decide_eq_true_iff]
  missing m := by
    refine List.filter_congr fun n _ => ?_
    rw [Bool.eq_iff_iff, decide_eq_true_iff, ← hasVisited_observeAll_iff]
    simp

end Recorder

end Coverage
