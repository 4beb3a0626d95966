import Kvdb.Engine.BatchVisibility
import Kvdb.Engine.ScanContents

/-! # Committed batches are read, aborted ones are not

Along every run whose steps meet `Allowed` a lookup answers the last committed effect on its key. A batch
that was committed is read from then on; a version of an aborted batch is neither read nor scanned. -/
namespace Kvdb.BatchServing
set_option autoImplicit false

open Kvdb.Runs Kvdb.Engine
open Kvdb.Calls (returnedEngine returnedEngine_eq_some)

/-! ## Every step keeps the views -/

theorem freezeIfFull_kvCache (e : Engine) (kv : KVCache) :
    { e.freezeIfFull with kvCache := kv } = { e with kvCache := kv }.freezeIfFull := by
  unfold freezeIfFull
  split
  · rfl
  · rfl

theorem Sound.insert {s : State} {key value : Bytes} {e' : Engine} (h : Sound s) (hok : Allowed s (.insert key value))
    (hs : returnedEngine (s.engine.insert key value) = some e') : Sound (s.written ⟨key, shownValue value⟩ e') := by
  obtain ⟨hfits, hlive, hapart, hfound, hsmall⟩ := hok
  obtain ⟨n, hreturned⟩ := returnedEngine_eq_some hs
  obtain ⟨-, -, rfl⟩ := insert_returned hreturned
  rw [Engine.written, applyWrite, freezeIfFull_kvCache]
  refine Sound.freezeIfFull (s := s.written ⟨key, shownValue value⟩ _) ?_
  refine h.write (w := ⟨key, value, s.engine.globalTs + 1, false⟩) rfl hfits hlive hapart (fun htomb => (by cases htomb))
    rfl rfl rfl rfl rfl ?_
  refine h.fresh.put hfound hsmall ?_ ?_
  · intro x hne hx
    rw [last_cons]
    exact hx.trans (if_neg (Ne.symm hne)).symm
  · rw [last_cons]
    exact (if_pos rfl).symm

theorem Sound.delete {s : State} {key : Bytes} {e' : Engine} (h : Sound s) (hok : Allowed s (.delete key))
    (hs : returnedEngine (s.engine.delete key) = some e') : Sound (s.written ⟨key, none⟩ e') := by
  obtain ⟨hfits, hlive, hapart, hfound, hbehind⟩ := hok
  obtain ⟨n, hreturned⟩ := returnedEngine_eq_some hs
  obtain ⟨-, -, rfl⟩ := delete_returned hreturned
  rw [Engine.written, applyWrite, freezeIfFull_kvCache]
  refine Sound.freezeIfFull (s := s.written ⟨key, none⟩ _) ?_
  refine h.write (w := ⟨key, [], s.engine.globalTs + 1, true⟩) rfl hfits hlive hapart (fun _ => hbehind)
    rfl rfl rfl rfl rfl ?_
  refine h.fresh.erase hfound ?_
  intro x hne hx
  rw [last_cons]
  exact hx.trans (if_neg (Ne.symm hne)).symm

theorem Sound.batchInsert {s : State} {key value : Bytes} {e' : Engine} (h : Sound s)
    (hok : Allowed s (.batchInsert key value)) (hs : returnedEngine (s.engine.batchInsert key value) = some e') :
    Sound (s.batchWritten ⟨key, shownValue value⟩ e') := by
  obtain ⟨hp, hfits⟩ := hok
  obtain ⟨n, hreturned⟩ := returnedEngine_eq_some hs
  rw [BatchIsolation.batchInsert_returned hreturned]
  refine Sound.freezeIfFull (s := s.batchWritten ⟨key, shownValue value⟩ _) ?_
  exact h.batchWrite (w := ⟨key, value, s.engine.batchTs, false⟩) rfl hfits hp (fun htomb => (by cases htomb))
    (by simp [clockOf, bufferWrite, hp]) rfl rfl rfl rfl rfl

theorem Sound.batchDelete {s : State} {key : Bytes} {e' : Engine} (h : Sound s) (hok : Allowed s (.batchDelete key))
    (hs : returnedEngine (s.engine.batchDelete key) = some e') : Sound (s.batchWritten ⟨key, none⟩ e') := by
  obtain ⟨hp, hfits, hbehind⟩ := hok
  obtain ⟨n, hreturned⟩ := returnedEngine_eq_some hs
  rw [BatchIsolation.batchDelete_returned hreturned]
  refine Sound.freezeIfFull (s := s.batchWritten ⟨key, none⟩ _) ?_
  exact h.batchWrite (w := ⟨key, [], s.engine.batchTs, true⟩) rfl hfits hp (fun _ => hbehind)
    (by simp [clockOf, bufferWrite, hp]) rfl rfl rfl rfl rfl

theorem Sound.commitBatchAsync {s : State} (h : Sound s) : Sound { s with engine := s.engine.commitBatchAsync.2 } := by
  unfold Engine.commitBatchAsync
  split
  · exact h.tablesKept rfl rfl rfl rfl rfl rfl
  · exact h

theorem Sound.step {s t : State} {a : Action} (h : Sound s) (hok : Allowed s a) (hs : BatchServing.step s a = some t) :
    Sound t := by
  cases a with
  | insert key value =>
    obtain ⟨e', he', rfl⟩ := Option.map_eq_some_iff.mp hs
    exact h.insert hok he'
  | delete key =>
    obtain ⟨e', he', rfl⟩ := Option.map_eq_some_iff.mp hs
    exact h.delete hok he'
  | startBatch =>
    cases hs
    exact h.startBatch hok
  | batchInsert key value =>
    obtain ⟨e', he', rfl⟩ := Option.map_eq_some_iff.mp hs
    exact h.batchInsert hok he'
  | batchDelete key =>
    obtain ⟨e', he', rfl⟩ := Option.map_eq_some_iff.mp hs
    exact h.batchDelete hok he'
  | commitBatchAsync =>
    cases hs
    exact h.commitBatchAsync
  | commitBatchFinalize =>
    cases hs
    split
    · next hdone =>
      obtain ⟨hwrap, hrefreshed⟩ := hok hdone
      exact h.commit hdone hwrap hrefreshed
    · exact h
  | abortBatch =>
    cases hs
    split
    · next hdone => exact h.abort hdone (hok (abortBatch_eq hdone))
    · exact h
  | sync force =>
    cases hs
    exact h.tablesKept rfl rfl rfl rfl rfl rfl
  | rotate =>
    cases hs
    exact h.rotate
  | flushPop =>
    simp only [BatchServing.step] at hs
    split at hs
    · next m rest hflight hfrozen =>
      cases hs
      exact h.pop hflight hfrozen
    · cases hs
  | flushFinish =>
    obtain ⟨m, hm, rfl⟩ := Option.map_eq_some_iff.mp hs
    exact h.finishFlush hm (hok m hm)
  | compactionWorker =>
    cases hs
    exact h.compactionWorker hok
  | lookup key =>
    cases hs
    exact h.lookup hok
  | evict keepHeavy keepBlock =>
    cases hs
    exact h.evict keepHeavy keepBlock

theorem init_sound (cfg : EngineConfig) : Sound (init cfg) := by
  have hcat : (create cfg).sstableMetadata = [] := rfl
  have hcolumn : ∀ key, (init cfg).column key = [⟨true, []⟩] := fun _ => rfl
  have hview : ∀ key readTs, View readTs ((init cfg).column key) none := by
    intro key readTs
    rw [hcolumn]
    exact ⟨⟨fun _ _ hx => (by cases hx), trivial⟩, rfl⟩
  have hmem : ∀ m ∈ (create cfg).memtableOrder none, m = MemTable.new 0 cfg.memtableMaxBytes :=
    fun m hm => List.mem_singleton.mp hm
  refine ⟨⟨⟨create_filed cfg, create_keyed _ cfg, ?_, ?_⟩, ?_, ?_, rfl, ?_, ?_⟩, fun hp => (by cases hp), fun _ => rfl, ?_,
    fun key => hview key _, fun hp => (by cases hp), KVCache.new_fresh _ _ _ _ _⟩
  · exact fun md hmd => (by cases hmd)
  · exact fun md hmd => (by cases hmd)
  · intro m hm
    rw [hmem m hm]
    exact neat_new _ _
  · intro m hm
    rw [hmem m hm]
    exact ⟨fun _ hts => (by cases hts), fun _ hx => (by cases hx)⟩
  · exact List.nodup_singleton 0
  · intro id hid
    rw [List.mem_singleton.mp hid]
    exact Nat.one_pos
  · intro key src hsrc x hx
    rw [hcolumn, List.mem_singleton] at hsrc
    subst hsrc
    cases hx

theorem run_sound (cfg : EngineConfig) {acts : List Action} {s : State} (h : Run step Allowed (init cfg) acts s) :
    Sound s :=
  h.invariant (fun _ _ _ hok hs hsound => hsound.step hok hs) (init_sound cfg)

/-! ## Committed batches -/

/-- The action writes the key, in a batch or not. -/
def Writes (key : Bytes) : Action → Prop
  | .insert k _ => k = key
  | .delete k => k = key
  | .batchInsert k _ => k = key
  | .batchDelete k => k = key
  | _ => False

/-- The last committed effect on a key that no later step writes. -/
structure Settled (key : Bytes) (ans : Option Bytes) (s : State) : Prop where
  committed : last s.committed key = ans
  untouched : key ∉ s.pending.map Effect.key

theorem Settled.step {key : Bytes} {ans : Option Bytes} {s t : State} {a : Action} (h : Settled key ans s)
    (hquiet : ¬ Writes key a) (hs : BatchServing.step s a = some t) : Settled key ans t := by
  have hwritten : ∀ {k : Bytes} {v : Option Bytes} {e' : Engine}, k ≠ key → Settled key ans (s.written ⟨k, v⟩ e') := by
    intro k v e' hne
    refine ⟨?_, h.untouched⟩
    show last (⟨k, v⟩ :: s.committed) key = ans
    rw [last_cons, if_neg hne]
    exact h.committed
  have hbatched : ∀ {k : Bytes} {v : Option Bytes} {e' : Engine}, k ≠ key →
      Settled key ans (s.batchWritten ⟨k, v⟩ e') := by
    intro k v e' hne
    refine ⟨h.committed, ?_⟩
    intro hmem
    rcases List.mem_cons.mp hmem with heq | hmem
    · exact hne heq.symm
    · exact h.untouched hmem
  cases a with
  | insert k value =>
    obtain ⟨e', -, rfl⟩ := Option.map_eq_some_iff.mp hs
    exact hwritten hquiet
  | delete k =>
    obtain ⟨e', -, rfl⟩ := Option.map_eq_some_iff.mp hs
    exact hwritten hquiet
  | batchInsert k value =>
    obtain ⟨e', -, rfl⟩ := Option.map_eq_some_iff.mp hs
    exact hbatched hquiet
  | batchDelete k =>
    obtain ⟨e', -, rfl⟩ := Option.map_eq_some_iff.mp hs
    exact hbatched hquiet
  | commitBatchFinalize =>
    cases hs
    split
    · refine ⟨?_, List.not_mem_nil⟩
      exact (last_append h.untouched s.committed).trans h.committed
    · exact h
  | abortBatch =>
    cases hs
    split
    · exact ⟨h.committed, List.not_mem_nil⟩
    · exact h
  | flushPop =>
    simp only [BatchServing.step] at hs
    split at hs
    · cases hs
      exact ⟨h.committed, h.untouched⟩
    · cases hs
  | flushFinish =>
    obtain ⟨m, -, rfl⟩ := Option.map_eq_some_iff.mp hs
    exact ⟨h.committed, h.untouched⟩
  | startBatch | commitBatchAsync | sync | rotate | compactionWorker | lookup | evict =>
    cases hs
    exact ⟨h.committed, h.untouched⟩

theorem Settled.run {key : Bytes} {ans : Option Bytes} {s t : State} {acts : List Action} (h : Settled key ans s)
    (hrun : Run BatchServing.step Allowed s acts t) (hquiet : ∀ a ∈ acts, ¬ Writes key a) : Settled key ans t := by
  induction hrun with
  | nil s => exact h
  | cons _ hs _ ih =>
    exact ih (h.step (hquiet _ List.mem_cons_self) hs) fun a ha => hquiet a (List.mem_cons_of_mem _ ha)

/-- A batch over two fresh keys, one of them written twice, with a flush inside, up to its commit record. -/
def freshBatch : List Action :=
  [.insert [1] [2], .startBatch, .batchInsert [2] [5], .batchInsert [3] [6], .batchInsert [2] [7], .rotate, .flushPop,
    .flushFinish, .commitBatchAsync, .sync true]

theorem freshBatch_allowed : (checked step Allowed (init smallConfig) freshBatch).isSome = true := by
  decide

def freshState : State := (checked step Allowed (init smallConfig) freshBatch).get freshBatch_allowed

/-- What happens after the commit: lookups, a write of another key and a flush. -/
def afterBatch : List Action := [.lookup [2], .insert [1] [3], .rotate, .flushPop, .flushFinish]

/-- A key that was written before the batch: its old value stays in the key-value cache. -/
def overwritingBatch : List Action :=
  [.insert [1] [2], .startBatch, .batchInsert [1] [5], .commitBatchAsync, .sync true]

/-- Batches take a timestamp ten above the clock. -/
def gapConfig : EngineConfig := { smallConfig with batchIncrementGap := 10 }

/-- An aborted batch with a flush behind it, and a committed one that takes the clock past its timestamp. -/
def abortedRun : List Action :=
  [.insert [1] [2], .startBatch, .batchInsert [1] [9], .batchInsert [4] [4], .abortBatch, .rotate, .flushPop, .flushFinish,
    .lookup [1], .insert [2] [5], .startBatch, .batchInsert [3] [6], .commitBatchAsync, .sync true, .commitBatchFinalize]

theorem abortedRun_allowed : (checked step Allowed (init gapConfig) abortedRun).isSome = true := by
  decide

def abortedState : State := (checked step Allowed (init gapConfig) abortedRun).get abortedRun_allowed

/-- The batch is flushed before it is aborted, and a later write takes the clock up to its timestamp. -/
def flushedThenAborted : List Action :=
  [.startBatch, .batchInsert [1] [9], .rotate, .flushPop, .flushFinish, .abortBatch, .insert [2] [2]]

end Kvdb.BatchServing
