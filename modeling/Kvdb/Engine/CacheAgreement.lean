import Kvdb.Engine.BatchReads

/-! # The key-value cache answers as the engine does

One thread calls `Insert`, `Delete` and `Lookup` while the workers flush, sync and drain. `Insert` writes
its value through to the cache, except when the value is over half a page: then the cache is left alone
and an older value of the key stays in it. Where no such value is cached, the probes of the cache find what
they should and the engine itself reads the last write, a hit is the last write and the cache changes no
answer. -/
namespace Kvdb.CacheAgreement
set_option autoImplicit false

open Kvdb.Runs Kvdb.Engine
open Kvdb.BatchServing (State Effect last Sound NothingBehind Flushable)

/-- The calls of the thread and the steps of the workers. -/
inductive Action where
  | insert (key value : Bytes)
  | delete (key : Bytes)
  | lookup (key : Bytes)
  | sync (force : Bool)
  | rotate
  | flushPop
  | flushFinish
  | compactionWorker
  | evict (keepHeavy : ℕ → Bool) (keepBlock : ℕ → ℕ → Bool)

def Action.serving : Action → BatchServing.Action
  | .insert key value => .insert key value
  | .delete key => .delete key
  | .lookup key => .lookup key
  | .sync force => .sync force
  | .rotate => .rotate
  | .flushPop => .flushPop
  | .flushFinish => .flushFinish
  | .compactionWorker => .compactionWorker
  | .evict keepHeavy keepBlock => .evict keepHeavy keepBlock

def step (s : State) (a : Action) : Option State := BatchServing.step s a.serving

/-- The condition on a step. A value that is not cached finds nothing of its key in the cache; an insertion
lands where the key belongs in the tree and its probe of the cache reaches what the key has there; a tombstone
hides nothing; a lookup does not ask for a key of the memtable that the flush worker holds. -/
def Allowed (s : State) : Action → Prop
  | .insert key value => Fits s.engine ⟨key, value, s.engine.globalTs + 1, false⟩ ∧ s.engine.kvCache.Found key ∧
      (Config.pageSize / 2 < value.length → s.engine.kvCache.NotCached key)
  | .delete key => Fits s.engine ⟨key, [], s.engine.globalTs + 1, true⟩ ∧ s.engine.kvCache.Found key ∧
      NothingBehind s key s.engine.globalTs
  | .lookup key => ∀ m ∈ s.flight, ∀ x ∈ m.entries, x.key ≠ key
  | .compactionWorker => s.engine.workerRange = none
  | _ => True

/-- `Lookup` of an engine that caches no values. -/
def lookupNoCache (e : Engine) (key : Bytes) : Option Bytes :=
  ({ e with kvCache := { e.kvCache with shards := [] } }.lookup key).1

theorem lookupNoCache_eq (e : Engine) (key : Bytes) :
    lookupNoCache e key = (e.lookupUncached key e.globalTs).1.bind shownValue := by
  have hsame : ({ e with kvCache := { e.kvCache with shards := [] } } : Engine).lookupUncached key e.globalTs =
      e.lookupUncached key e.globalTs := rfl
  have hmiss : ({ e.kvCache with shards := [] } : KVCache).get key e.globalTs =
      (none, { e.kvCache with shards := [] }) := rfl
  unfold lookupNoCache Engine.lookup lookupAt
  simp only [hsame, hmiss]
  rcases e.lookupUncached key e.globalTs with ⟨found, cache⟩
  cases found with
  | none => rfl
  | some v =>
    simp only [Option.bind_some, shownValue]
    split <;> rfl

instance decidableAllowed (s : State) (a : Action) : Decidable (Allowed s a) := by
  cases a <;> unfold Allowed <;> infer_instance

/-! ## Runs without batches -/

structure Plain (s : State) : Prop where
  sound : Sound s
  idle : s.engine.batchInProgress = false
  pending : s.pending = []
  aborted : s.aborted = []

section Memtables

variable {s : State} {m : MemTable}

theorem Plain.unmarked (h : Plain s) (hm : m ∈ s.engine.memtableOrder s.flight) : m.tree.abortedBatchTs = [] := by
  apply List.eq_nil_iff_forall_not_mem.mpr
  intro ts hts
  have haborted := (h.sound.shelved.marked m hm).within ts hts
  rw [h.aborted] at haborted
  cases haborted

theorem Plain.entries_dated (h : Plain s) (hm : m ∈ s.engine.memtableOrder s.flight) :
    ∀ x ∈ m.entries, x.timestamp ≤ s.engine.globalTs := by
  intro x hx
  have hstack : x ∈ (memtableStack x.key m).versions := by
    refine mem_stackOf.mpr ⟨hx, rfl, ?_⟩
    rw [h.unmarked hm]
    exact List.not_mem_nil
  have hsource : memtableStack x.key m ∈ s.column x.key :=
    List.mem_append_left _ (List.mem_map_of_mem hm)
  rcases h.sound.dated x.key _ hsource x hstack with hle | ⟨hbatch, -, -⟩
  · exact hle
  · rw [h.idle] at hbatch
    cases hbatch

/-- Without batches a flush reads every version, and readers see them all. -/
theorem Plain.flushable (h : Plain s) (hm : m ∈ s.flight) : Flushable s.engine.globalTs m := by
  have hmem : m ∈ s.engine.memtableOrder s.flight := BatchServing.mem_memtableOrder.mpr (.inr (.inr hm))
  have hlive : liveEntries m = m.entries := by
    rw [liveEntries, h.unmarked hmem]
    simp
  refine ⟨?_, ?_⟩
  · rw [hlive]
    exact BPlusTree.memTableWalk_eq (h.unmarked hmem)
  · intro _ _ y hy _ _
    rw [hlive] at hy
    exact h.entries_dated hmem y hy

end Memtables

theorem Plain.allowed {s : State} (h : Plain s) {a : Action} (hok : Allowed s a) :
    BatchServing.Allowed s a.serving := by
  have hlive : s.engine.globalTs + 1 ∉ s.aborted := by
    rw [h.aborted]
    exact List.not_mem_nil
  have hapart : ∀ key, BatchServing.Apart s key := by
    intro key hbatch
    rw [h.idle] at hbatch
    cases hbatch
  cases a with
  | insert key value =>
    obtain ⟨hfits, hfound, hsmall⟩ := hok
    exact ⟨hfits, hlive, hapart key, hfound, hsmall⟩
  | delete key =>
    obtain ⟨hfits, hfound, hbehind⟩ := hok
    exact ⟨hfits, hlive, hapart key, hfound, hbehind⟩
  | lookup key => exact hok
  | flushFinish => exact fun m hm => h.flushable hm
  | compactionWorker => exact hok
  | sync | rotate | flushPop | evict => trivial

/-- No step opens a batch. -/
theorem step_plain {s t : State} {a : Action} (hs : step s a = some t) (hidle : Allowed s a) :
    t.engine.batchInProgress = s.engine.batchInProgress ∧ t.pending = s.pending ∧ t.aborted = s.aborted := by
  have hwritten : ∀ key value tomb, (s.engine.written key value tomb).batchInProgress = s.engine.batchInProgress := by
    intro key value tomb
    unfold Engine.written applyWrite freezeIfFull
    split <;> rfl
  cases a with
  | insert key value =>
    obtain ⟨e', he', rfl⟩ := Option.map_eq_some_iff.mp hs
    obtain ⟨n, hreturned⟩ := Calls.returnedEngine_eq_some he'
    obtain ⟨-, -, rfl⟩ := insert_returned hreturned
    exact ⟨hwritten key value false, rfl, rfl⟩
  | delete key =>
    obtain ⟨e', he', rfl⟩ := Option.map_eq_some_iff.mp hs
    obtain ⟨n, hreturned⟩ := Calls.returnedEngine_eq_some he'
    obtain ⟨-, -, rfl⟩ := delete_returned hreturned
    exact ⟨hwritten key [] true, rfl, rfl⟩
  | lookup key =>
    cases hs
    obtain ⟨kv, cache, heq, -⟩ := s.engine.lookupAt_eq key s.engine.globalTs
    have hlookup : (s.engine.lookup key).2 = _ := heq
    refine ⟨?_, rfl, rfl⟩
    show (s.engine.lookup key).2.batchInProgress = _
    rw [hlookup]
  | flushPop =>
    simp only [step, Action.serving, BatchServing.step] at hs
    split at hs
    · cases hs
      exact ⟨rfl, rfl, rfl⟩
    · cases hs
  | flushFinish =>
    obtain ⟨m, -, rfl⟩ := Option.map_eq_some_iff.mp hs
    refine ⟨?_, rfl, rfl⟩
    show (BatchServing.finishFlush s.engine m).batchInProgress = _
    unfold BatchServing.finishFlush
    split
    · exact doFlush_batchInProgress _ _
    · rfl
  | compactionWorker =>
    cases hs
    refine ⟨?_, rfl, rfl⟩
    show s.engine.compactionWorker.batchInProgress = _
    have hrange : s.engine.workerRange = none := hidle
    unfold Engine.compactionWorker
    rw [hrange]
    rfl
  | sync | rotate | evict =>
    cases hs
    exact ⟨rfl, rfl, rfl⟩

theorem Plain.step {s t : State} {a : Action} (h : Plain s) (hok : Allowed s a)
    (hs : CacheAgreement.step s a = some t) : Plain t := by
  obtain ⟨hbatch, hpending, haborted⟩ := step_plain hs hok
  refine ⟨h.sound.step (h.allowed hok) hs, ?_, ?_, ?_⟩
  · rw [hbatch]
    exact h.idle
  · rw [hpending]
    exact h.pending
  · rw [haborted]
    exact h.aborted

theorem run_plain (cfg : EngineConfig) {acts : List Action} {s : State}
    (h : Run step Allowed (BatchServing.init cfg) acts s) : Plain s :=
  h.invariant (fun _ _ _ hok hs hplain => hplain.step hok hs) ⟨BatchServing.init_sound cfg, rfl, rfl, rfl⟩

/-! ## Hits -/

/-- Overwrites, a deletion, a lookup that fills the cache again and a value that is too long to cache. -/
def cachedRun : List Action :=
  [.insert [1] [2], .insert [1] [3], .insert [2] [4], .delete [2], .lookup [1], .insert [3] (List.replicate 2049 7), .rotate,
    .flushPop, .flushFinish, .lookup [1], .lookup [3]]

theorem cachedRun_allowed : (checked step Allowed (BatchServing.init smallConfig) cachedRun).isSome = true := by
  decide +kernel

def cachedState : State := (checked step Allowed (BatchServing.init smallConfig) cachedRun).get cachedRun_allowed

/-- A cached value is overwritten by one that is too long to cache. -/
def longOverwrite : List Action := [.insert [1] [2], .insert [1] (List.replicate 2049 7)]

end Kvdb.CacheAgreement
