import Kvdb.Engine.Steps
import Kvdb.Lib.Runs

/-! # The calls of a run without batches

A run is a sequence of writes, rotations of the memtable, rounds of the flush worker, compactions
(`ManualCompact` with any arguments, or a round of the compaction worker), drains of the file garbage,
lookups at any timestamp and evictions from the SSTable cache. `Flush` is a rotation followed by
rounds of the flush worker. -/
namespace Kvdb.Calls
set_option autoImplicit false

open Kvdb.Runs Kvdb.Engine

inductive Call where
  | insert (key value : Bytes)
  | delete (key : Bytes)
  | rotate
  | flushWorker
  | manualCompact (minSstables fromLevel : ℤ) (cascade : Bool)
  | compactionWorker
  | drainFileGC (minActiveTs : ℕ)
  | lookup (key : Bytes) (readTs : ℕ)
  | evict (keepHeavy : ℕ → Bool) (keepBlock : ℕ → ℕ → Bool)

/-- The engine after a call that returns. -/
def returnedEngine {α : Type} : Outcome (Engine × α) → Option Engine
  | .returned r => some r.1
  | _ => none

def step (e : Engine) : Call → Option Engine
  | .insert key value => returnedEngine (e.insert key value)
  | .delete key => returnedEngine (e.delete key)
  | .rotate => if e.activeMemtable.entryCount = 0 then none else some e.rotate
  | .flushWorker => some e.flushWorker
  | .manualCompact minSstables fromLevel cascade => some (e.manualCompact minSstables fromLevel cascade).1
  | .compactionWorker => some e.compactionWorker
  | .drainFileGC minActiveTs => some (e.drainFileGC minActiveTs)
  | .lookup key readTs => some (e.lookupAt key readTs).2
  | .evict keepHeavy keepBlock =>
    some { e with sstCache := e.sstCache.map fun c => c.evict keepHeavy keepBlock }

/-- The levels that the call hands to `CompactLevel`. -/
def compacted (e : Engine) : Call → Option (ℕ × ℕ)
  | .manualCompact minSstables fromLevel cascade => e.manualRange minSstables fromLevel cascade
  | .compactionWorker => e.workerRange
  | _ => none

/-- The version that the call writes. -/
def writes (e : Engine) : Call → Option KeyValuePair
  | .insert key value => some ⟨key, value, e.globalTs + 1, false⟩
  | .delete key => some ⟨key, [], e.globalTs + 1, true⟩
  | _ => none

theorem returnedEngine_eq_some {α : Type} {o : Outcome (Engine × α)} {e' : Engine} (h : returnedEngine o = some e') :
    ∃ n, o = .returned (e', n) := by
  cases o with
  | returned r =>
    cases h
    exact ⟨r.2, rfl⟩
  | threw what => cases h
  | waiting => cases h

theorem insert_step {e e' : Engine} {key value : Bytes} (h : step e (.insert key value) = some e') :
    e.mayWrite ∧ e' = { e.written key value false with kvCache := e.kvCache.put key value (e.globalTs + 1) } := by
  obtain ⟨n, hins⟩ := returnedEngine_eq_some h
  obtain ⟨hfree, -, heq⟩ := insert_returned hins
  exact ⟨hfree, heq⟩

theorem delete_step {e e' : Engine} {key : Bytes} (h : step e (.delete key) = some e') :
    e.mayWrite ∧ e' = { e.written key [] true with kvCache := e.kvCache.erase key } := by
  obtain ⟨n, hdel⟩ := returnedEngine_eq_some h
  obtain ⟨hfree, -, heq⟩ := delete_returned hdel
  exact ⟨hfree, heq⟩

/-- A compaction call drains the garbage, after `CompactLevel` if it hands over any levels. -/
theorem compact_step {e e' : Engine} {call : Call} (h : step e call = some e')
    (hcall : (∃ n l b, call = .manualCompact n l b) ∨ call = .compactionWorker) :
    (compacted e call = none ∧ (e' = e ∨ e' = e.drainFileGC uint64Max)) ∨
      ∃ bottom top, compacted e call = some (bottom, top) ∧
        e' = (e.compactLevel bottom top).drainFileGC uint64Max := by
  rcases hcall with ⟨n, l, b, rfl⟩ | rfl
  · simp only [step, Engine.manualCompact, Option.some.injEq] at h
    split at h
    · next hrange => exact .inl ⟨hrange, .inl h.symm⟩
    · next bottom top hrange => exact .inr ⟨bottom, top, hrange, h.symm⟩
  · simp only [step, Engine.compactionWorker, Option.some.injEq] at h
    split at h
    · next hrange => exact .inl ⟨hrange, .inr h.symm⟩
    · next bottom top hrange => exact .inr ⟨bottom, top, hrange, h.symm⟩

/-- What every part of a call keeps, the call keeps. -/
theorem step_rule {P : Engine → Prop} {e e' : Engine} {call : Call} (h : step e call = some e')
    (hP : P e)
    (hwrite : ∀ w kv, writes e call = some w → e.mayWrite →
      P { e.written w.key w.value w.isTombstone with kvCache := kv })
    (hrotate : e.activeMemtable.entryCount ≠ 0 → P e.rotate)
    (hflush : P e.flushWorker)
    (hcompact : ∀ bottom top, compacted e call = some (bottom, top) → P (e.compactLevel bottom top))
    (hdrain : ∀ e1 ts, P e1 → P (e1.drainFileGC ts))
    (hlookup : ∀ key readTs, P (e.lookupAt key readTs).2)
    (hevict : ∀ keepHeavy keepBlock,
      P { e with sstCache := e.sstCache.map fun c => c.evict keepHeavy keepBlock }) : P e' := by
  have hcompaction : ((∃ n l b, call = .manualCompact n l b) ∨ call = .compactionWorker) → P e' := by
    intro hcall
    rcases compact_step h hcall with ⟨-, rfl | rfl⟩ | ⟨bottom, top, hrange, rfl⟩
    · exact hP
    · exact hdrain e _ hP
    · exact hdrain _ _ (hcompact bottom top hrange)
  cases call with
  | insert key value =>
    obtain ⟨hfree, rfl⟩ := insert_step h
    exact hwrite ⟨key, value, e.globalTs + 1, false⟩ _ rfl hfree
  | delete key =>
    obtain ⟨hfree, rfl⟩ := delete_step h
    exact hwrite ⟨key, [], e.globalTs + 1, true⟩ _ rfl hfree
  | rotate =>
    simp only [step] at h
    split at h
    · cases h
    · next hcount =>
      cases h
      exact hrotate hcount
  | flushWorker =>
    cases h
    exact hflush
  | manualCompact n l b => exact hcompaction (.inl ⟨n, l, b, rfl⟩)
  | compactionWorker => exact hcompaction (.inr rfl)
  | drainFileGC ts =>
    cases h
    exact hdrain e ts hP
  | lookup key readTs =>
    cases h
    exact hlookup key readTs
  | evict keepHeavy keepBlock =>
    cases h
    exact hevict keepHeavy keepBlock

/-- A version is written and its memtable flushed. -/
def flushed (key value : Bytes) : List Call := [.insert key value, .rotate, .flushWorker]

end Kvdb.Calls
