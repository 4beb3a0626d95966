import Kvdb.Engine.Outputs

/-! # Tombstones at the last level

A compaction into the last level writes no tombstone. A version that the tombstone hides can stand in
one of the inputs, where it loses to the tombstone, or in a table that is already at the last level,
which no compaction reads. -/
namespace Kvdb.LastLevel
set_option autoImplicit false

open Kvdb.Runs Kvdb.Engine Kvdb.Calls

/-- The merge reads the tombstone and does not write it. -/
structure Dropped (e : Engine) (fromLevel topLevel : ℕ) (x : KeyValuePair) : Prop where
  input : x ∈ e.inputEntries fromLevel topLevel
  tombstone : x.isTombstone = true
  notMerged : x ∉ (e.compactionJob fromLevel topLevel).merged

/-- No table holds an older version of the key. -/
def NoOlder (e : Engine) (x : KeyValuePair) : Prop :=
  ∀ md ∈ e.sstableMetadata, ∀ y ∈ e.tableEntries md, y.key = x.key → ¬ y.timestamp < x.timestamp

instance decidableDropped (e : Engine) (fromLevel topLevel : ℕ) (x : KeyValuePair) :
    Decidable (Dropped e fromLevel topLevel x) :=
  decidable_of_iff (x ∈ e.inputEntries fromLevel topLevel ∧ x.isTombstone = true ∧
      x ∉ (e.compactionJob fromLevel topLevel).merged)
    ⟨fun h => ⟨h.1, h.2.1, h.2.2⟩, fun h => ⟨h.input, h.tombstone, h.notMerged⟩⟩

instance decidableNoOlder (e : Engine) (x : KeyValuePair) : Decidable (NoOlder e x) :=
  inferInstanceAs (Decidable (∀ md ∈ e.sstableMetadata, ∀ y ∈ e.tableEntries md, y.key = x.key →
    ¬ y.timestamp < x.timestamp))

/-- A version and its tombstone are flushed, in two tables. -/
def deletedRun : List Call :=
  [.insert [1] [2], .rotate, .flushWorker, .delete [1], .rotate, .flushWorker]

theorem deletedRun_enabled : (checked step anyStep (create smallConfig) deletedRun).isSome = true := by
  decide +kernel

def deleted : Engine := (checked step anyStep (create smallConfig) deletedRun).get deletedRun_enabled

/-- `2 ^ n` flushes, compacted in pairs level by level, make one table of level `n`. -/
def compactedTo (write : Call) : ℕ → List Call
  | 0 => [write, .rotate, .flushWorker]
  | n + 1 => compactedTo write n ++ compactedTo write n ++ [.manualCompact 2 n false]

/-- A value is brought to the last level, and two tables with its tombstone to the level before. -/
def resurrectingRun : List Call :=
  compactedTo (.insert [1] [2]) 7 ++ compactedTo (.delete [1]) 6 ++ compactedTo (.delete [1]) 6

/-- The compaction drops the tombstone, the value of the last level stays and is found again. -/
def Resurrects (e : Engine) : Prop :=
  e.manualRange 2 6 false = some (6, 6) ∧ Dropped e 6 6 ⟨[1], [], 256, true⟩ ∧
    ¬ NoOlder (e.compactLevel 6 6) ⟨[1], [], 256, true⟩ ∧ ((e.compactLevel 6 6).lookup [1]).1 = some [2]

instance decidableResurrects (e : Engine) : Decidable (Resurrects e) :=
  inferInstanceAs (Decidable (e.manualRange 2 6 false = some (6, 6) ∧ Dropped e 6 6 ⟨[1], [], 256, true⟩ ∧
    ¬ NoOlder (e.compactLevel 6 6) ⟨[1], [], 256, true⟩ ∧ ((e.compactLevel 6 6).lookup [1]).1 = some [2]))

end Kvdb.LastLevel
