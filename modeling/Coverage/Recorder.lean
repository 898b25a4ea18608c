import Coverage.OrderedMap

/-!
Visit counters. A tally counts visits by number and never holds a zero, so a
number is present exactly when it was visited; counts stop at the largest
64-bit number. A recorder keeps one tally for nodes and one for blocks, and a
run of a program is a list of events observed by it.
-/
namespace Coverage

/-- The sum, or the largest 64-bit number where the sum is beyond it. -/
def addSaturating (a b : UInt64) : UInt64 :=
  if a.toNat + b.toNat < UInt64.size then a + b else UInt64.ofNat (UInt64.size - 1)

theorem toNat_addSaturating (a b : UInt64) :
    (addSaturating a b).toNat = min (UInt64.size - 1) (a.toNat + b.toNat) := by
  simp only [addSaturating]
  split
  · rename_i h
    rw [UInt64.toNat_add]
    simp only [UInt64.size] at h ⊢
    omega
  · rename_i h
    simp only [UInt64.size] at h ⊢
    rw [UInt64.toNat_ofNat']
    omega

theorem addSaturating_ne_zero (a : UInt64) {b : UInt64} (h : b ≠ 0) : addSaturating a b ≠ 0 := by
  intro hzero
  have hnat := congrArg UInt64.toNat hzero
  rw [toNat_addSaturating] at hnat
  have hb : b.toNat ≠ 0 := fun hb => h (UInt64.toNat_inj.1 (by simpa using hb))
  simp only [UInt64.size, UInt64.toNat_zero] at hnat
  omega

structure Tally where
  counts : OrderedMap UInt64 UInt64
  positive : ∀ e ∈ counts.entries, e.2 ≠ 0
deriving DecidableEq

namespace Tally

def empty : Tally := ⟨.empty, by simp [OrderedMap.empty]⟩

instance : Inhabited Tally := ⟨empty⟩

def count (t : Tally) (key : UInt64) : UInt64 := (t.counts.find? key).getD 0

def contains (t : Tally) (key : UInt64) : Bool := t.counts.contains key

/-- The numbers counted so far, in ascending order. -/
def keys (t : Tally) : List UInt64 := t.counts.keys

def size (t : Tally) : Nat := t.counts.size

/-- Adds several visits at once; none at all leaves no trace. -/
def record (t : Tally) (key amount : UInt64) : Tally :=
  if h : amount = 0 then t
  else
    { counts := t.counts.alter key fun held => addSaturating (held.getD 0) amount
      positive := by
        intro e he
        rcases OrderedMap.mem_alterEntries he with he | ⟨_, he⟩ | ⟨a, _, _, he⟩
        · exact t.positive e he
        · rw [he]
          exact addSaturating_ne_zero _ h
        · rw [he]
          exact addSaturating_ne_zero _ h }

end Tally

inductive Event where
  | visitNode (id : UInt64)
  | visitBlock (index : UInt64)
  | recordNode (id count : UInt64)
  | recordBlock (index count : UInt64)
deriving DecidableEq, Repr

structure Recorder where
  nodes : Tally
  blocks : Tally
deriving DecidableEq, Inhabited

namespace Recorder

def empty : Recorder := ⟨.empty, .empty⟩

def recordNode (r : Recorder) (id count : UInt64) : Recorder :=
  { r with nodes := r.nodes.record id count }

def recordBlock (r : Recorder) (index count : UInt64) : Recorder :=
  { r with blocks := r.blocks.record index count }

/-- A visit is recorded as a count of one, so it leaves a full counter as it is. A counter that
adds visits plainly overflows there, and agrees with this one up to that point. -/
def observe (r : Recorder) : Event → Recorder
  | .visitNode id => r.recordNode id 1
  | .visitBlock index => r.recordBlock index 1
  | .recordNode id count => r.recordNode id count
  | .recordBlock index count => r.recordBlock index count

def observeAll (r : Recorder) (events : List Event) : Recorder := events.foldl observe r

def hasVisited (r : Recorder) (id : UInt64) : Bool := r.nodes.contains id

end Recorder

end Coverage
