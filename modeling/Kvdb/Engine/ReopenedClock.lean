import Kvdb.Engine.BatchIsolation
import Kvdb.Engine.Coverage
import Kvdb.Log.Clock

/-! # The clock of a reopened engine

Runs of writes, batches, flushes, syncs and `TrimWAL`, with crashes and clean closes in between.
`global_ts_` is rebuilt from the log alone. The first pass of `Recover` ends at the first begin or commit
record, and the second pass at the first checkpoint behind it, so after two flushes behind a batch the
reopened engine stands below versions that its tables hold. -/
namespace Kvdb.ReopenedClock
set_option autoImplicit false

open Kvdb.Runs Kvdb.Engine
open WAL (Bounded Unmarked Clocked clock reached)

/-- The engine, the records of the writes of the batch in progress, and the records of the writes whose
commit is complete: a normal write that returned, or a batch that `CommitBatch` returned `true` for. -/
structure State where
  engine : Engine
  pending : List WalRecord
  complete : List WalRecord

inductive Action where
  | call (a : BatchIsolation.Action)
  | trimWAL
  | crash (cfg : EngineConfig)
  | close (cfg : EngineConfig)

/-- The engine is reopened. -/
def Action.reopens : Action → Bool
  | .crash _ => true
  | .close _ => true
  | _ => false

def init (cfg : EngineConfig) : State := ⟨Engine.create cfg, [], []⟩

/-- The record of a version in the log. -/
def record (x : KeyValuePair) : WalRecord := .entry x.key x.value x.timestamp

/-- The state after a call that leads to the engine `e` and writes `writes`. -/
def afterCall (s : State) (e : Engine) (writes : List KeyValuePair) : BatchIsolation.Action → State
  | .insert _ _ => ⟨e, s.pending, s.complete ++ writes.map record⟩
  | .delete _ => ⟨e, s.pending, s.complete ++ writes.map record⟩
  | .batchInsert _ _ => ⟨e, s.pending ++ writes.map record, s.complete⟩
  | .batchDelete _ => ⟨e, s.pending ++ writes.map record, s.complete⟩
  | .startBatch => ⟨e, if s.engine.startBatch.1 then [] else s.pending, s.complete⟩
  | .commitBatchFinalize =>
    if s.engine.commitBatchFinalize.1 then ⟨e, [], s.complete ++ s.pending⟩ else ⟨e, s.pending, s.complete⟩
  | .abortBatch => ⟨e, if s.engine.abortBatch.1 then [] else s.pending, s.complete⟩
  | _ => ⟨e, s.pending, s.complete⟩

def step (s : State) : Action → Option State
  | .call a => (BatchIsolation.step ⟨s.engine, []⟩ a).map fun t => afterCall s t.engine t.writes a
  | .trimWAL => s.engine.wal.trimToLastCheckpoint.map fun w => { s with engine := { s.engine with wal := w } }
  | .crash cfg => some ⟨construct cfg s.engine.directory, [], s.complete⟩
  | .close cfg => some ⟨construct cfg s.engine.close.directory, [], s.complete⟩

/-- No version in the tables that is not aborted and whose commit is complete is above `global_ts_`. -/
def Covered (s : State) : Prop :=
  ∀ md ∈ s.engine.sstableMetadata, ∀ x ∈ s.engine.tableEntries md, x.timestamp ∉ md.abortedBatchTs →
    record x ∈ s.complete → x.timestamp ≤ s.engine.globalTs

/-- The two passes of `Recover` on the log `log` read the record of each of the versions that is complete. -/
def Recorded (s : State) (log : List WalRecord) (xs : List KeyValuePair) : Prop :=
  ∀ x ∈ xs, record x ∈ s.complete → record x ∈ reached log

/-- The condition on a step: when the engine is reopened, the records of the complete versions in its tables
are in the part of the synced log that recovery reads, not in the buffer and not behind a checkpoint that
follows a begin or commit record. A clean close syncs the buffer and flushes the memtables first. -/
def Allowed (s : State) : Action → Prop
  | .crash _ => ∀ md ∈ s.engine.sstableMetadata, Recorded s s.engine.wal.file (s.engine.tableEntries md)
  | .close _ => (∀ md ∈ s.engine.sstableMetadata, Recorded s s.engine.wal.log (s.engine.tableEntries md)) ∧
      Recorded s s.engine.wal.log s.engine.activeMemtable.entries ∧
      ∀ m ∈ s.engine.frozenMemtables, Recorded s s.engine.wal.log m.entries
  | _ => True

/-! ## The versions of an engine -/

/-- Every version in the memtables and in the catalogued tables. -/
structure AllVersions (W : KeyValuePair → Prop) (e : Engine) : Prop where
  active : ∀ x ∈ e.activeMemtable.entries, W x
  frozen : ∀ m ∈ e.frozenMemtables, ∀ x ∈ m.entries, W x
  tables : ∀ md ∈ e.sstableMetadata, ∀ x ∈ e.tableEntries md, W x

variable {W : KeyValuePair → Prop} {e e' : Engine}

theorem AllVersions.mono {W' : KeyValuePair → Prop} (h : AllVersions W e) (hW : ∀ x, W x → W' x) :
    AllVersions W' e :=
  ⟨fun x hx => hW x (h.active x hx), fun m hm x hx => hW x (h.frozen m hm x hx),
    fun md hmd x hx => hW x (h.tables md hmd x hx)⟩

theorem AllVersions.congr (h : AllVersions W e) (hactive : e'.activeMemtable.entries = e.activeMemtable.entries)
    (hfrozen : ∀ m ∈ e'.frozenMemtables, ∃ m' ∈ e.frozenMemtables, m.entries = m'.entries)
    (hcat : ∀ md ∈ e'.sstableMetadata, ∃ md' ∈ e.sstableMetadata, md.filepath = md'.filepath)
    (hfiles : e'.files = e.files) : AllVersions W e' := by
  refine ⟨?_, ?_, ?_⟩
  · rw [hactive]
    exact h.active
  · intro m hm x hx
    obtain ⟨m', hm', heq⟩ := hfrozen m hm
    exact h.frozen m' hm' x (heq ▸ hx)
  · intro md hmd x hx
    obtain ⟨md', hmd', hpath⟩ := hcat md hmd
    refine h.tables md' hmd' x ?_
    rw [tableEntries, ← hpath, ← hfiles]
    exact hx

/-- A step that leaves the memtables and the tables alone. -/
theorem AllVersions.same (h : AllVersions W e) (hactive : e'.activeMemtable = e.activeMemtable)
    (hfrozen : e'.frozenMemtables = e.frozenMemtables) (hcat : e'.sstableMetadata = e.sstableMetadata)
    (hfiles : e'.files = e.files) : AllVersions W e' :=
  h.congr (by rw [hactive]) (fun m hm => ⟨m, hfrozen ▸ hm, rfl⟩) (fun md hmd => ⟨md, hcat ▸ hmd, rfl⟩) hfiles

theorem AllVersions.memInsert (h : AllVersions W e) (key value : Bytes) (ts : ℕ) (isTombstone : Bool)
    (hW : W ⟨key, value, ts, isTombstone⟩) : AllVersions W (e.memInsert key value ts isTombstone) := by
  refine ⟨?_, h.frozen, h.tables⟩
  intro x hx
  rcases MemTable.mem_insert hx with rfl | hx
  · exact hW
  · exact h.active x hx

theorem AllVersions.rotate (h : AllVersions W e) : AllVersions W e.rotate := by
  refine ⟨fun _ hx => (by cases hx), ?_, h.tables⟩
  intro m hm x hx
  rcases List.mem_append.mp hm with hm | hm
  · exact h.frozen m hm x hx
  · rw [List.mem_singleton.mp hm] at hx
    exact h.active x hx

theorem AllVersions.applyWrite (h : AllVersions W e) (key value : Bytes) (isTombstone : Bool) (ts : ℕ)
    (hW : W ⟨key, value, ts, isTombstone⟩) : AllVersions W (e.applyWrite key value isTombstone ts) := by
  have hbuffered : AllVersions W (e.bufferWrite key value ts) := h.same rfl rfl rfl rfl
  have hins := hbuffered.memInsert key value ts isTombstone hW
  unfold Engine.applyWrite freezeIfFull
  split
  · exact hins.rotate
  · exact hins

theorem AllVersions.doFlush (h : AllVersions W e) {m : MemTable} (hm : ∀ x ∈ m.entries, W x) :
    AllVersions W (e.doFlush m) := by
  rcases e.doFlush_cases m with ⟨-, heq⟩ | ⟨-, md, cache, hmd, heq⟩
  · rw [heq]
    exact h
  · rw [heq]
    refine ⟨h.active, h.frozen, ?_⟩
    intro md' hmd' x hx
    by_cases hpath : md'.filepath = e.sstableSeq
    · refine e.flushFile_stems m hm x ?_
      simpa [tableEntries, afterFlush, hpath] using hx
    · rcases List.mem_append.mp hmd' with hmd' | hmd'
      · refine h.tables md' hmd' x ?_
        simpa [tableEntries, afterFlush, hpath] using hx
      · rw [List.mem_singleton.mp hmd'] at hpath
        exact absurd hmd.filepath hpath

theorem AllVersions.flushWorker (h : AllVersions W e) : AllVersions W e.flushWorker := by
  unfold Engine.flushWorker
  split
  · exact h
  · next m rest hfrozen =>
    have hpop : AllVersions W { e with frozenMemtables := rest } := by
      refine ⟨h.active, ?_, h.tables⟩
      intro m' hm'
      refine h.frozen m' ?_
      rw [hfrozen]
      exact List.mem_cons_of_mem m hm'
    split
    · have hflush := hpop.doFlush (h.frozen m (by rw [hfrozen]; exact List.mem_cons_self))
      exact hflush.same rfl rfl rfl rfl
    · exact hpop

theorem AllVersions.abortBatch (h : AllVersions W e) : AllVersions W e.abortBatch.2 := by
  unfold Engine.abortBatch
  split
  · simp only []
    split
    · refine h.congr rfl ?_ ?_ rfl
      · intro m hm
        obtain ⟨m', hm', rfl⟩ := List.mem_map.mp hm
        exact ⟨m', hm', rfl⟩
      · intro md hmd
        obtain ⟨md', hmd', rfl⟩ := List.mem_map.mp hmd
        exact ⟨md', hmd', rfl⟩
    · exact h.same rfl rfl rfl rfl
  · exact h

theorem lookupAt_keeps {α : Type} (field : Engine → α) (e : Engine) (key : Bytes) (readTs : ℕ)
    (h : ∀ kv cache, field { e with kvCache := kv, sstCache := cache } = field e) :
    field (e.lookupAt key readTs).2 = field e := by
  unfold lookupAt
  split
  · exact h _ _
  · split
    · split
      · exact h _ _
      · exact h _ _
    · exact h _ _

/-- A call keeps what holds of every version, if it holds of what the call writes. -/
theorem AllVersions.call (h : AllVersions W e) {a : BatchIsolation.Action} {t : BatchIsolation.State}
    (hs : BatchIsolation.step ⟨e, []⟩ a = some t) (hW : ∀ w ∈ t.writes, W w) : AllVersions W t.engine := by
  cases a with
  | insert key value =>
    obtain ⟨e1, n, hret, rfl⟩ := BatchIsolation.afterWrite_eq_some hs
    obtain ⟨-, -, rfl⟩ := insert_returned hret
    have htick : AllVersions W e.tick := h.same rfl rfl rfl rfl
    exact (htick.applyWrite key value false _ (hW _ List.mem_cons_self)).same rfl rfl rfl rfl
  | delete key =>
    obtain ⟨e1, n, hret, rfl⟩ := BatchIsolation.afterWrite_eq_some hs
    obtain ⟨-, -, rfl⟩ := delete_returned hret
    have htick : AllVersions W e.tick := h.same rfl rfl rfl rfl
    exact (htick.applyWrite key [] true _ (hW _ List.mem_cons_self)).same rfl rfl rfl rfl
  | batchInsert key value =>
    obtain ⟨e1, n, hret, rfl⟩ := BatchIsolation.afterWrite_eq_some hs
    rw [BatchIsolation.batchInsert_returned hret]
    have htouched : AllVersions W { e with batchTouched := true } := h.same rfl rfl rfl rfl
    exact htouched.applyWrite key value false _ (hW _ List.mem_cons_self)
  | batchDelete key =>
    obtain ⟨e1, n, hret, rfl⟩ := BatchIsolation.afterWrite_eq_some hs
    rw [BatchIsolation.batchDelete_returned hret]
    have htouched : AllVersions W { e with batchTouched := true } := h.same rfl rfl rfl rfl
    exact htouched.applyWrite key [] true _ (hW _ List.mem_cons_self)
  | startBatch =>
    cases hs
    unfold Engine.startBatch
    split
    · exact h
    · exact h.same rfl rfl rfl rfl
  | commitBatchAsync =>
    cases hs
    unfold Engine.commitBatchAsync
    split
    · exact h.same rfl rfl rfl rfl
    · exact h
  | commitBatchFinalize =>
    cases hs
    unfold Engine.commitBatchFinalize
    split
    · exact h.same rfl rfl rfl rfl
    · exact h
  | abortBatch =>
    cases hs
    exact h.abortBatch
  | sync force =>
    cases hs
    exact h.same rfl rfl rfl rfl
  | rotate =>
    cases hs
    exact h.rotate
  | flushWorker =>
    cases hs
    exact h.flushWorker
  | lookup key =>
    cases hs
    exact h.same (lookupAt_keeps Engine.activeMemtable e key _ fun _ _ => rfl)
      (lookupAt_keeps Engine.frozenMemtables e key _ fun _ _ => rfl)
      (lookupAt_keeps Engine.sstableMetadata e key _ fun _ _ => rfl)
      (lookupAt_keeps Engine.files e key _ fun _ _ => rfl)
  | evict keepHeavy keepBlock =>
    cases hs
    exact h.same rfl rfl rfl rfl

/-! ## The MANIFEST -/

theorem InStep.flushWorker (h : InStep e) : InStep e.flushWorker := by
  unfold Engine.flushWorker
  split
  · exact h
  · next m rest hfrozen =>
    have hpop : InStep { e with frozenMemtables := rest } := h.congr rfl rfl
    split
    · exact (hpop.doFlush m).congr rfl rfl
    · exact hpop

theorem InStep.abortBatch (h : InStep e) : InStep e.abortBatch.2 := by
  unfold Engine.abortBatch
  split
  · simp only []
    split
    · refine ⟨?_, ?_⟩
      · simp only [Manifest.addAbortBatch, Manifest.removed_append, h.removed]
        rfl
      · simp only [Manifest.addAbortBatch, Manifest.added_append, Manifest.added, List.append_nil, h.added,
          List.map_map]
        rfl
    · exact h.congr rfl rfl
  · exact h

theorem InStep.applyWrite (h : InStep e) (key value : Bytes) (isTombstone : Bool) (ts : ℕ) :
    InStep (e.applyWrite key value isTombstone ts) := by
  unfold Engine.applyWrite freezeIfFull
  split
  · exact h.congr rfl rfl
  · exact h.congr rfl rfl

theorem InStep.call (h : InStep e) {a : BatchIsolation.Action} {t : BatchIsolation.State}
    (hs : BatchIsolation.step ⟨e, []⟩ a = some t) : InStep t.engine := by
  cases a with
  | insert key value =>
    obtain ⟨e1, n, hret, rfl⟩ := BatchIsolation.afterWrite_eq_some hs
    obtain ⟨-, -, rfl⟩ := insert_returned hret
    have htick : InStep e.tick := h.congr rfl rfl
    exact (InStep.applyWrite htick key value false (e.globalTs + 1)).congr rfl rfl
  | delete key =>
    obtain ⟨e1, n, hret, rfl⟩ := BatchIsolation.afterWrite_eq_some hs
    obtain ⟨-, -, rfl⟩ := delete_returned hret
    have htick : InStep e.tick := h.congr rfl rfl
    exact (InStep.applyWrite htick key [] true (e.globalTs + 1)).congr rfl rfl
  | batchInsert key value =>
    obtain ⟨e1, n, hret, rfl⟩ := BatchIsolation.afterWrite_eq_some hs
    rw [BatchIsolation.batchInsert_returned hret]
    have htouched : InStep { e with batchTouched := true } := h.congr rfl rfl
    exact InStep.applyWrite htouched key value false _
  | batchDelete key =>
    obtain ⟨e1, n, hret, rfl⟩ := BatchIsolation.afterWrite_eq_some hs
    rw [BatchIsolation.batchDelete_returned hret]
    have htouched : InStep { e with batchTouched := true } := h.congr rfl rfl
    exact InStep.applyWrite htouched key [] true _
  | startBatch =>
    cases hs
    unfold Engine.startBatch
    split
    · exact h
    · exact h.congr rfl rfl
  | commitBatchAsync =>
    cases hs
    unfold Engine.commitBatchAsync
    split
    · exact h.congr rfl rfl
    · exact h
  | commitBatchFinalize =>
    cases hs
    unfold Engine.commitBatchFinalize
    split
    · exact h.congr rfl rfl
    · exact h
  | abortBatch =>
    cases hs
    exact InStep.abortBatch h
  | sync force =>
    cases hs
    exact h.congr rfl rfl
  | rotate =>
    cases hs
    exact h.congr rfl rfl
  | flushWorker =>
    cases hs
    exact InStep.flushWorker h
  | lookup key =>
    cases hs
    refine h.congr (lookupAt_keeps Engine.manifest e key _ fun _ _ => rfl) ?_
    exact congrArg _ (lookupAt_keeps Engine.sstableMetadata e key _ fun _ _ => rfl)
  | evict keepHeavy keepBlock =>
    cases hs
    exact h.congr rfl rfl

/-! ## The log -/

/-- `Clocked` of the members of the engine. -/
def Ticking (e : Engine) : Prop := Clocked e.wal e.globalTs e.batchInProgress e.batchTs

/-- The members that `Ticking` depends on. -/
def logged (e : Engine) : WAL × ℕ × Bool × ℕ := (e.wal, e.globalTs, e.batchInProgress, e.batchTs)

theorem Ticking.congr (h : Ticking e) (heq : logged e' = logged e) : Ticking e' := by
  simp only [logged, Prod.mk.injEq] at heq
  rw [Ticking, heq.1, heq.2.1, heq.2.2.1, heq.2.2.2]
  exact h

theorem logged_applyWrite (e : Engine) (key value : Bytes) (isTombstone : Bool) (ts : ℕ) :
    logged (e.applyWrite key value isTombstone ts) = logged (e.bufferWrite key value ts) := by
  unfold applyWrite freezeIfFull
  split <;> rfl

theorem unmarked_left {as bs : List WalRecord} (h : Unmarked (as ++ bs)) : Unmarked as :=
  fun r hr => h r (List.mem_append_left _ hr)

theorem log_append (w : WAL) (r : WalRecord) (seq : ℕ) :
    WAL.log { w with writeBuf := w.writeBuf ++ [r], batchSeq := seq } = w.log ++ [r] := by
  simp [WAL.log]

/-- A normal write. -/
theorem Ticking.written (h : Ticking e) (key value : Bytes) (isTombstone : Bool) :
    Ticking (e.written key value isTombstone) := by
  have hbuffered : Ticking (e.tick.bufferWrite key value (e.globalTs + 1)) := by
    refine Clocked.append h (log_append e.wal _ _) (.inl rfl) (fun _ _ hr => by cases hr) ?_ ?_ ?_
    · rintro - key value ts hr
      cases hr
      exact Nat.le_refl _
    · exact fun _ => Nat.le_succ _
    · intro hun
      have hidle := h.idle (unmarked_left ((log_append e.wal _ _) ▸ hun))
      exact ⟨hidle.1, Nat.le_succ_of_le hidle.2⟩
  exact hbuffered.congr (logged_applyWrite e.tick key value isTombstone (e.globalTs + 1))

theorem Ticking.batchWrite (h : Ticking e) (key value : Bytes) (isTombstone : Bool) :
    Ticking (e.batchWrite key value isTombstone) := by
  have hbuffered : Ticking ({ e with batchTouched := true }.bufferWrite key value e.batchTs) := by
    refine Clocked.append h (log_append e.wal _ _) (.inl rfl) (fun _ _ hr => by cases hr) ?_
      (fun _ => Nat.le_refl _) ?_
    · intro hun key value ts hr
      cases hr
      exact (h.idle hun).2
    · exact fun hun => h.idle (unmarked_left ((log_append e.wal _ _) ▸ hun))
  exact hbuffered.congr (logged_applyWrite { e with batchTouched := true } key value isTombstone e.batchTs)

theorem Ticking.writeCheckpoint (h : Ticking e) : Ticking e.writeCheckpoint := by
  refine Clocked.append h (log_append e.wal _ _) (.inl rfl) ?_ (fun _ _ _ _ hr => by cases hr)
    (fun _ => Nat.le_refl _) ?_
  · rintro ts b hr
    cases hr
    rfl
  · exact fun hun => h.idle (unmarked_left ((log_append e.wal _ _) ▸ hun))

theorem Ticking.doFlush (h : Ticking e) (m : MemTable) : Ticking (e.doFlush m) := by
  refine h.congr ?_
  rcases e.doFlush_cases m with ⟨-, heq⟩ | ⟨-, md, cache, -, heq⟩
  · rw [heq]
  · rw [heq]
    rfl

theorem Ticking.flushWorker (h : Ticking e) : Ticking e.flushWorker := by
  unfold Engine.flushWorker
  split
  · exact h
  · next m rest hfrozen =>
    have hpop : Ticking { e with frozenMemtables := rest } := h.congr rfl
    split
    · exact (hpop.doFlush m).writeCheckpoint
    · exact hpop

theorem Ticking.startBatch (h : Ticking e) : Ticking e.startBatch.2 := by
  unfold Engine.startBatch
  split
  · exact h
  · refine Clocked.append h (log_append e.wal _ _) (.inl rfl) (fun _ _ hr => by cases hr)
      (fun _ _ _ _ hr => by cases hr) (fun _ => Nat.le_refl _) ?_
    intro hun
    have hmark := hun (.batchBegin _) (List.mem_append_right _ (List.mem_append_right _ List.mem_cons_self))
    cases hmark

theorem Ticking.commitBatchAsync (h : Ticking e) : Ticking e.commitBatchAsync.2 := by
  unfold Engine.commitBatchAsync
  split
  · refine Clocked.append h (log_append e.wal _ _) (.inl rfl) (fun _ _ hr => by cases hr)
      (fun _ _ _ _ hr => by cases hr) (fun _ => Nat.le_refl _) ?_
    intro hun
    have hmark := hun (.batchCommit _) (List.mem_append_right _ (List.mem_append_right _ List.mem_cons_self))
    cases hmark
  · exact h

theorem Ticking.not_unmarked (h : Ticking e) (hbatch : e.batchInProgress = true) : ¬ Unmarked e.wal.log := by
  intro hun
  have hidle := (h.idle hun).1
  rw [hbatch] at hidle
  cases hidle

theorem Ticking.commitBatchFinalize (h : Ticking e) : Ticking e.commitBatchFinalize.2 := by
  unfold Engine.commitBatchFinalize
  split
  · next hready =>
    have hmarked := h.not_unmarked (Bool.and_eq_true_iff.mp hready).1
    exact Clocked.keep h rfl (.inl rfl) (fun hun => absurd hun hmarked) (fun hun => absurd hun hmarked)
  · exact h

theorem Ticking.sync (h : Ticking e) (force : Bool) (seq : ℕ) :
    Ticking { e with wal := (e.wal.sync force).2, syncedSeq := seq } :=
  Clocked.keep h (WAL.sync_log e.wal force).1 (WAL.sync_log e.wal force).2 (fun _ => Nat.le_refl _) h.idle

theorem Ticking.abortBatch (h : Ticking e) : Ticking e.abortBatch.2 := by
  unfold Engine.abortBatch
  split
  · next hbatch =>
    have hmarked := h.not_unmarked hbatch
    simp only []
    split
    · obtain ⟨hlog, -⟩ := WAL.sync_log (e.wal.bufferAbort e.batchTs) true
      have happend := hlog.trans (log_append e.wal (.abort e.batchTs) e.wal.batchSeq)
      refine Clocked.append h happend (.inr ?_) (fun _ _ hr => by cases hr)
        (fun _ _ _ _ hr => by cases hr) (fun _ => Nat.le_refl _) ?_
      · rw [hlog]
        exact WAL.sync_true_file _
      · exact fun hun => absurd (unmarked_left (happend ▸ hun)) hmarked
    · exact Clocked.keep h rfl (.inl rfl) (fun hun => absurd hun hmarked) (fun hun => absurd hun hmarked)
  · exact h

theorem Ticking.call (h : Ticking e) {a : BatchIsolation.Action} {t : BatchIsolation.State}
    (hs : BatchIsolation.step ⟨e, []⟩ a = some t) : Ticking t.engine := by
  cases a with
  | insert key value =>
    obtain ⟨e1, n, hret, rfl⟩ := BatchIsolation.afterWrite_eq_some hs
    obtain ⟨-, -, rfl⟩ := insert_returned hret
    exact (h.written key value false).congr rfl
  | delete key =>
    obtain ⟨e1, n, hret, rfl⟩ := BatchIsolation.afterWrite_eq_some hs
    obtain ⟨-, -, rfl⟩ := delete_returned hret
    exact (h.written key [] true).congr rfl
  | batchInsert key value =>
    obtain ⟨e1, n, hret, rfl⟩ := BatchIsolation.afterWrite_eq_some hs
    rw [BatchIsolation.batchInsert_returned hret]
    exact h.batchWrite key value false
  | batchDelete key =>
    obtain ⟨e1, n, hret, rfl⟩ := BatchIsolation.afterWrite_eq_some hs
    rw [BatchIsolation.batchDelete_returned hret]
    exact h.batchWrite key [] true
  | startBatch =>
    cases hs
    exact h.startBatch
  | commitBatchAsync =>
    cases hs
    exact h.commitBatchAsync
  | commitBatchFinalize =>
    cases hs
    exact h.commitBatchFinalize
  | abortBatch =>
    cases hs
    exact h.abortBatch
  | sync force =>
    cases hs
    exact h.sync force _
  | rotate =>
    cases hs
    exact h.congr rfl
  | flushWorker =>
    cases hs
    exact h.flushWorker
  | lookup key =>
    cases hs
    exact h.congr (lookupAt_keeps logged e key _ fun _ _ => rfl)
  | evict keepHeavy keepBlock =>
    cases hs
    exact h.congr rfl

/-- A call appends to the log, among others the records of what it writes. -/
theorem call_log {a : BatchIsolation.Action} {t : BatchIsolation.State}
    (hs : BatchIsolation.step ⟨e, []⟩ a = some t) :
    ∃ rs, t.engine.wal.log = e.wal.log ++ rs ∧ ∀ w ∈ t.writes, record w ∈ rs := by
  have hwrite : ∀ (w : KeyValuePair) (wal : WAL), wal = e.wal.buffer w.key w.value w.timestamp →
      ∃ rs, wal.log = e.wal.log ++ rs ∧ ∀ w' ∈ [w], record w' ∈ rs := by
    rintro w wal rfl
    refine ⟨[record w], log_append e.wal _ _, ?_⟩
    intro w' hw'
    rw [List.mem_singleton.mp hw']
    exact List.mem_cons_self
  have hquiet : ∀ wal : WAL, wal.log = e.wal.log →
      ∃ rs, wal.log = e.wal.log ++ rs ∧ ∀ w ∈ ([] : List KeyValuePair), record w ∈ rs :=
    fun wal hlog => ⟨[], by rw [hlog, List.append_nil], fun _ hw => by cases hw⟩
  have hmarker : ∀ (wal : WAL) (r : WalRecord), wal.log = e.wal.log ++ [r] →
      ∃ rs, wal.log = e.wal.log ++ rs ∧ ∀ w ∈ ([] : List KeyValuePair), record w ∈ rs :=
    fun wal r hlog => ⟨[r], hlog, fun _ hw => by cases hw⟩
  cases a with
  | insert key value =>
    obtain ⟨e1, n, hret, rfl⟩ := BatchIsolation.afterWrite_eq_some hs
    obtain ⟨-, -, rfl⟩ := insert_returned hret
    exact hwrite ⟨key, value, e.globalTs + 1, false⟩ _
      (congrArg Prod.fst (logged_applyWrite e.tick key value false (e.globalTs + 1)))
  | delete key =>
    obtain ⟨e1, n, hret, rfl⟩ := BatchIsolation.afterWrite_eq_some hs
    obtain ⟨-, -, rfl⟩ := delete_returned hret
    exact hwrite ⟨key, [], e.globalTs + 1, true⟩ _
      (congrArg Prod.fst (logged_applyWrite e.tick key [] true (e.globalTs + 1)))
  | batchInsert key value =>
    obtain ⟨e1, n, hret, rfl⟩ := BatchIsolation.afterWrite_eq_some hs
    rw [BatchIsolation.batchInsert_returned hret]
    exact hwrite ⟨key, value, e.batchTs, false⟩ _
      (congrArg Prod.fst (logged_applyWrite { e with batchTouched := true } key value false e.batchTs))
  | batchDelete key =>
    obtain ⟨e1, n, hret, rfl⟩ := BatchIsolation.afterWrite_eq_some hs
    rw [BatchIsolation.batchDelete_returned hret]
    exact hwrite ⟨key, [], e.batchTs, true⟩ _
      (congrArg Prod.fst (logged_applyWrite { e with batchTouched := true } key [] true e.batchTs))
  | startBatch =>
    cases hs
    unfold Engine.startBatch
    split
    · exact hquiet _ rfl
    · exact hmarker _ _ (log_append e.wal _ _)
  | commitBatchAsync =>
    cases hs
    unfold Engine.commitBatchAsync
    split
    · exact hmarker _ _ (log_append e.wal _ _)
    · exact hquiet _ rfl
  | commitBatchFinalize =>
    cases hs
    unfold Engine.commitBatchFinalize
    split
    · exact hquiet _ rfl
    · exact hquiet _ rfl
  | abortBatch =>
    cases hs
    unfold Engine.abortBatch
    split
    · simp only []
      split
      · exact hmarker _ _ ((WAL.sync_log (e.wal.bufferAbort e.batchTs) true).1.trans (log_append e.wal _ _))
      · exact hquiet _ rfl
    · exact hquiet _ rfl
  | sync force =>
    cases hs
    exact hquiet _ (WAL.sync_log e.wal force).1
  | rotate =>
    cases hs
    exact hquiet _ rfl
  | flushWorker =>
    cases hs
    unfold Engine.flushWorker
    split
    · exact hquiet _ rfl
    · split
      · next m rest hfrozen hcount =>
        refine hmarker _ (.checkpoint e.globalTs (if e.batchInProgress then e.batchTs else 0)) ?_
        have hsame : logged ({ e with frozenMemtables := rest }.doFlush m) = logged e :=
          doFlush_keeps logged _ m fun _ _ => rfl
        simp only [logged, Prod.mk.injEq] at hsame
        simp only [Engine.writeCheckpoint, hsame.1, hsame.2.1, hsame.2.2.1, hsame.2.2.2]
        exact log_append e.wal _ _
      · exact hquiet _ rfl
  | lookup key =>
    cases hs
    exact hquiet _ (congrArg WAL.log (lookupAt_keeps Engine.wal e key _ fun _ _ => rfl))
  | evict keepHeavy keepBlock =>
    cases hs
    exact hquiet _ rfl

/-! ## Reopening -/

/-- The engine between two entries of the replay of `file`. -/
structure Rebuilding (W : KeyValuePair → Prop) (file : List WalRecord) (e : Engine) : Prop where
  versions : AllVersions W e
  logFile : e.wal.file = file
  buffered : ∀ r ∈ e.wal.writeBuf, r.isCheckpoint = true
  idle : e.batchInProgress = false ∧ e.batchTs = 0

variable {file : List WalRecord}

theorem Rebuilding.doFlush (h : Rebuilding W file e) {m : MemTable} (hm : ∀ x ∈ m.entries, W x) :
    Rebuilding W file (e.doFlush m) ∧ (e.doFlush m).globalTs = e.globalTs := by
  have hsame : logged (e.doFlush m) = logged e := doFlush_keeps logged e m fun _ _ => rfl
  simp only [logged, Prod.mk.injEq] at hsame
  refine ⟨⟨h.versions.doFlush hm, ?_, ?_, ?_⟩, hsame.2.1⟩
  · rw [hsame.1, h.logFile]
  · rw [hsame.1]
    exact h.buffered
  · rw [hsame.2.2.1, hsame.2.2.2]
    exact h.idle

theorem Rebuilding.flushActive (h : Rebuilding W file e) :
    Rebuilding W file e.flushActive ∧ e.flushActive.globalTs = e.globalTs := by
  have hfresh : Rebuilding W file e.freshMemtable :=
    ⟨⟨fun _ hx => (by cases hx), h.versions.frozen, h.versions.tables⟩, h.logFile, h.buffered, h.idle⟩
  exact hfresh.doFlush h.versions.active

theorem Rebuilding.writeCheckpoint (h : Rebuilding W file e) : Rebuilding W file e.writeCheckpoint := by
  refine ⟨h.versions.same rfl rfl rfl rfl, h.logFile, ?_, h.idle⟩
  intro r hr
  rcases List.mem_append.mp hr with hr | hr
  · exact h.buffered r hr
  · rw [List.mem_singleton.mp hr]
    rfl

theorem Rebuilding.replayEntry (h : Rebuilding W file e) {kv : KeyValuePair}
    (hW : W ⟨kv.key, kv.value, kv.timestamp, false⟩) :
    Rebuilding W file (e.replayEntry kv) ∧ (e.replayEntry kv).globalTs = max e.globalTs kv.timestamp := by
  have hins : Rebuilding W file ((e.memInsert kv.key kv.value kv.timestamp false).raiseTs kv.timestamp) :=
    ⟨(h.versions.memInsert kv.key kv.value kv.timestamp false hW).same rfl rfl rfl rfl, h.logFile, h.buffered,
      h.idle⟩
  unfold Engine.replayEntry
  simp only []
  split
  · obtain ⟨hflush, hts⟩ := hins.flushActive
    exact ⟨hflush.writeCheckpoint, hts⟩
  · exact ⟨hins, rfl⟩

theorem Rebuilding.replay (kvs : List KeyValuePair) (h : Rebuilding W file e)
    (hW : ∀ kv ∈ kvs, W ⟨kv.key, kv.value, kv.timestamp, false⟩) :
    Rebuilding W file (kvs.foldl Engine.replayEntry e) ∧
      (kvs.foldl Engine.replayEntry e).globalTs = (kvs.map KeyValuePair.timestamp).foldl max e.globalTs := by
  induction kvs generalizing e with
  | nil => exact ⟨h, rfl⟩
  | cons kv kvs ih =>
    obtain ⟨hnext, hts⟩ := h.replayEntry (hW kv List.mem_cons_self)
    obtain ⟨hend, hall⟩ := ih hnext fun kv' hkv' => hW kv' (List.mem_cons_of_mem _ hkv')
    refine ⟨hend, ?_⟩
    rw [List.foldl_cons, List.map_cons, List.foldl_cons, hall, hts]

/-- A reopened engine: its clock, and the checkpoints that its recovery has appended to the log. -/
structure Rebuilt (W : KeyValuePair → Prop) (file : List WalRecord) (e : Engine) : Prop where
  versions : AllVersions W e
  globalTs : e.globalTs = clock file
  log : e.wal.log = e.wal.file ∧ (e.wal.file = file ∨
    ∃ cs, e.wal.file = file ++ cs ++ [.checkpoint (clock file) 0] ∧ ∀ r ∈ cs, r.isCheckpoint = true)
  idle : e.batchInProgress = false ∧ e.batchTs = 0

theorem Rebuilding.finishReplay (h : Rebuilding W file e) (hts : e.globalTs = clock file) :
    Rebuilt W file e.finishReplay := by
  have hflushed : ∀ e1 : Engine, Rebuilding W file e1 → e1.globalTs = e.globalTs →
      Rebuilt W file e1.writeCheckpoint.syncWal := by
    intro e1 h1 hts1
    have hckpt : e1.writeCheckpoint.wal.writeBuf = e1.wal.writeBuf ++ [.checkpoint (clock file) 0] := by
      show e1.wal.writeBuf ++ [_] = _
      rw [h1.idle.1, hts1, hts]
      rfl
    have hsync : e1.writeCheckpoint.syncWal.wal.file = file ++ e1.wal.writeBuf ++ [.checkpoint (clock file) 0] := by
      show (e1.writeCheckpoint.wal.sync true).2.file = _
      rw [WAL.sync_true_file, WAL.log, hckpt, h1.writeCheckpoint.logFile, List.append_assoc]
    refine ⟨h1.writeCheckpoint.versions.same rfl rfl rfl rfl, hts1.trans hts, ⟨?_, .inr ?_⟩, h1.idle⟩
    · show (e1.writeCheckpoint.wal.sync true).2.log = (e1.writeCheckpoint.wal.sync true).2.file
      rw [(WAL.sync_log _ _).1, WAL.sync_true_file]
    · exact ⟨e1.wal.writeBuf, hsync, h1.buffered⟩
  unfold Engine.finishReplay
  split
  · exact hflushed _ h.flushActive.1 h.flushActive.2
  · exact hflushed e h rfl

theorem foldl_markAborted_keeps {α : Type} (field : Engine → α) (hfield : ∀ e ts, field (e.markAborted ts) = field e)
    (aborted : List ℕ) (e : Engine) : field (aborted.foldl markAborted e) = field e := by
  induction aborted generalizing e with
  | nil => rfl
  | cons ts aborted ih => rw [List.foldl_cons, ih, hfield]

theorem AllVersions.markAborted (h : AllVersions W e) (ts : ℕ) : AllVersions W (e.markAborted ts) := by
  refine h.congr rfl (fun m hm => ⟨m, hm, rfl⟩) ?_ rfl
  intro md hmd
  obtain ⟨md', hmd', rfl⟩ := List.mem_map.mp hmd
  exact ⟨md', hmd', rfl⟩

/-- Reopening on the directory that `e` leaves: what holds of the versions in its tables and of the entries
that are replayed holds of every version, and the clock is that of the log. -/
theorem construct_rebuilt (cfg : EngineConfig) (hstep : InStep e)
    (htables : ∀ md ∈ e.sstableMetadata, ∀ x ∈ e.tableEntries md, W x)
    (hreplay : ∀ x ∈ (WAL.recover e.wal.file).entries, W x) :
    Rebuilt W e.wal.file (construct cfg e.directory) := by
  have hopen : AllVersions W ((openDirectory cfg e.directory).raiseTs (WAL.recover e.wal.file).checkpointTs) := by
    refine ⟨fun _ hx => (by cases hx), fun _ hm => (by cases hm), ?_⟩
    intro md hmd x hx
    obtain ⟨m, hm, rfl⟩ := List.mem_map.mp hmd
    have hpaths : (Manifest.recover e.manifest).map Metadata.filepath = e.sstableMetadata.map Metadata.filepath := by
      refine map_filepath_of_pathLevel ?_
      rw [Manifest.pathLevel_recover, Manifest.surviving_of_removed_nil _ hstep.removed, hstep.added]
    have hin : m.filepath ∈ e.sstableMetadata.map Metadata.filepath := hpaths ▸ List.mem_map_of_mem hm
    obtain ⟨md', hmd', hpath⟩ := List.mem_map.mp hin
    refine htables md' hmd' x ?_
    rw [tableEntries, filepath_fillMetadata] at hx
    rw [tableEntries, hpath]
    exact hx
  have hstart : Rebuilding W e.wal.file (replayStart cfg e.directory) := by
    have hsame : logged (replayStart cfg e.directory) =
        (⟨e.wal.file, [], 0, 0⟩, max 0 (WAL.recover e.wal.file).checkpointTs, false, 0) :=
      foldl_markAborted_keeps logged (fun _ _ => rfl) _ _
    simp only [logged, Prod.mk.injEq] at hsame
    refine ⟨?_, ?_, ?_, hsame.2.2⟩
    · exact foldl_rule (P := AllVersions W) (fun e ts he => he.markAborted ts) _ hopen
    · rw [hsame.1]
    · rw [hsame.1]
      exact fun _ hr => by cases hr
  have hts : (replayStart cfg e.directory).globalTs = (WAL.recover e.wal.file).checkpointTs := by
    have hkeep := foldl_markAborted_keeps Engine.globalTs (fun _ _ => rfl) (WAL.recover e.wal.file).aborted
      ((openDirectory cfg e.directory).raiseTs (WAL.recover e.wal.file).checkpointTs)
    exact hkeep.trans (Nat.zero_max _)
  have htomb : ∀ kv ∈ (WAL.recover e.wal.file).entries, W ⟨kv.key, kv.value, kv.timestamp, false⟩ := by
    intro kv hkv
    have hkeep := hreplay kv hkv
    rw [WAL.recover] at hkv
    have hflag := ((WAL.mem_replayEntries _ kv).mp hkv).1
    rw [← hflag]
    exact hkeep
  have hrec : (openDirectory cfg e.directory).recoverFromWAL =
      if (WAL.recover e.wal.file).entries.isEmpty then replayStart cfg e.directory
      else ((WAL.recover e.wal.file).entries.foldl Engine.replayEntry
        (replayStart cfg e.directory)).finishReplay := rfl
  have hrebuilt : Rebuilt W e.wal.file (openDirectory cfg e.directory).recoverFromWAL := by
    rw [hrec]
    split
    · next hempty =>
      have hclock : clock e.wal.file = (WAL.recover e.wal.file).checkpointTs := by
        rw [clock, List.isEmpty_iff.mp hempty]
        rfl
      refine ⟨hstart.versions, hts.trans hclock.symm, ⟨?_, .inl hstart.logFile⟩, hstart.idle⟩
      have hsame := foldl_markAborted_keeps Engine.wal (fun _ _ => rfl) (WAL.recover e.wal.file).aborted
        ((openDirectory cfg e.directory).raiseTs (WAL.recover e.wal.file).checkpointTs)
      show (replayStart cfg e.directory).wal.log = _
      rw [show (replayStart cfg e.directory).wal = ⟨e.wal.file, [], 0, 0⟩ from hsame]
      exact List.append_nil _
    · obtain ⟨hend, hall⟩ := hstart.replay _ htomb
      refine hend.finishReplay ?_
      rw [hall, hts]
      rfl
  exact ⟨hrebuilt.versions.same rfl rfl rfl rfl, hrebuilt.globalTs, hrebuilt.log, hrebuilt.idle⟩

theorem Rebuilt.ticking (h : Rebuilt W file e) (hfile : Bounded file) : Ticking e := by
  have hentries : ∀ key value ts, .entry key value ts ∈ e.wal.log → .entry key value ts ∈ file := by
    intro key value ts hin
    rcases h.log with ⟨hlog, heq | ⟨cs, heq, hcs⟩⟩
    · rw [hlog, heq] at hin
      exact hin
    · rw [hlog, heq, List.mem_append, List.mem_append, List.mem_singleton] at hin
      rcases hin with (hin | hin) | hin
      · exact hin
      · cases hcs _ hin
      · cases hin
  have hun : Unmarked e.wal.log → Unmarked file := by
    rcases h.log with ⟨hlog, heq | ⟨cs, heq, -⟩⟩
    · rw [hlog, heq]
      exact id
    · rw [hlog, heq]
      exact fun hall => unmarked_left (unmarked_left hall)
  have hle : Unmarked file → ∀ key value ts, .entry key value ts ∈ file → ts ≤ clock file := by
    intro hfront key value ts hin
    rw [← WAL.visible_of_unmarked hfront] at hin
    exact hfile key value ts hin
  have hbounded : Bounded e.wal.file := by
    rcases h.log with ⟨-, heq | ⟨cs, heq, hcs⟩⟩
    · rw [heq]
      exact hfile
    · rw [heq]
      by_cases hfront : Unmarked file
      · refine WAL.bounded_checkpoint ?_ 0 ?_
        · intro r hr
          rcases List.mem_append.mp hr with hr | hr
          · exact hfront r hr
          · have hckpt := hcs r hr
            cases r <;> first | rfl | cases hckpt
        · intro key value ts hin
          rcases List.mem_append.mp hin with hin | hin
          · exact hle hfront key value ts hin
          · cases hcs _ hin
      · rw [List.append_assoc]
        exact hfile.append_of_marked hfront _
  refine ⟨hbounded, h.log.1 ▸ hbounded, ?_, ?_⟩
  · intro hall key value ts hin
    rw [h.globalTs]
    exact hle (hun hall) key value ts (hentries key value ts hin)
  · intro _
    exact ⟨h.idle.1, by rw [h.idle.2]; exact Nat.zero_le _⟩

/-! ## Closing -/

/-- The engine between two steps of the destructor: everything buffered has been synced. -/
structure Closing (W : KeyValuePair → Prop) (log : List WalRecord) (e : Engine) : Prop where
  versions : AllVersions W e
  inStep : InStep e
  ticking : Ticking e
  synced : e.wal.file = e.wal.log
  reached : ∀ r ∈ reached log, r ∈ WAL.reached e.wal.file

variable {log : List WalRecord}

theorem Closing.doFlush (h : Closing W log e) {m : MemTable} (hm : ∀ x ∈ m.entries, W x) :
    Closing W log (e.doFlush m) := by
  refine ⟨h.versions.doFlush hm, h.inStep.doFlush m, h.ticking.doFlush m, ?_, ?_⟩
  · rw [doFlush_wal]
    exact h.synced
  · rw [doFlush_wal]
    exact h.reached

theorem Closing.flushAll (ms : List MemTable) (h : Closing W log e) (hms : ∀ m ∈ ms, ∀ x ∈ m.entries, W x) :
    Closing W log (ms.foldl Engine.doFlush e) := by
  induction ms generalizing e with
  | nil => exact h
  | cons m ms ih =>
    exact ih (h.doFlush (hms m List.mem_cons_self)) fun m' hm' => hms m' (List.mem_cons_of_mem _ hm')

theorem Closing.checkpoint (h : Closing W log e) : Closing W log e.writeCheckpoint.syncWal := by
  have hlog : e.writeCheckpoint.syncWal.wal.log = e.wal.log ++ [_] :=
    (WAL.sync_log _ _).1.trans (log_append e.wal _ _)
  have hsynced : e.writeCheckpoint.syncWal.wal.file = e.writeCheckpoint.syncWal.wal.log := by
    rw [hlog]
    exact (WAL.sync_true_file _).trans (log_append e.wal _ _)
  refine ⟨h.versions.same rfl rfl rfl rfl, h.inStep.congr rfl rfl, h.ticking.writeCheckpoint.sync true _,
    hsynced, ?_⟩
  intro r hr
  rw [hsynced, hlog]
  exact WAL.mem_reached_append (h.synced ▸ h.reached r hr) _

theorem Closing.drainFileGC (h : Closing W log e) (ts : ℕ) : Closing W log (e.drainFileGC ts) := by
  refine ⟨⟨h.versions.active, h.versions.frozen, ?_⟩, h.inStep.congr rfl rfl, h.ticking.congr rfl, h.synced,
    h.reached⟩
  intro md hmd x hx
  refine h.versions.tables md hmd x ?_
  simp only [tableEntries, Engine.drainFileGC] at hx
  split at hx
  · cases hx
  · exact hx

theorem close_closing (hversions : AllVersions W e) (hstep : InStep e) (hticking : Ticking e) :
    Closing W e.wal.log e.close := by
  have hsynced : Closing W e.wal.log { e.syncWal with frozenMemtables := [] } := by
    refine ⟨⟨hversions.active, fun _ hm => (by cases hm), hversions.tables⟩, hstep.congr rfl rfl,
      (hticking.sync true e.syncedSeq).congr rfl, ?_, ?_⟩
    · exact (WAL.sync_true_file _).trans (WAL.sync_log _ _).1.symm
    · intro r hr
      show r ∈ WAL.reached (e.wal.sync true).2.file
      rw [WAL.sync_true_file]
      exact hr
  have hflushed := hsynced.flushAll e.frozenMemtables hversions.frozen
  unfold Engine.close
  simp only []
  split
  · exact (hflushed.doFlush hversions.active).checkpoint.drainFileGC _
  · exact hflushed.drainFileGC _

/-! ## Runs -/

/-- The records of every complete version in the engine and of every write of the batch in progress are in
the log, and recovery of the log would not leave the clock below an entry that it reads. -/
structure Sound (s : State) : Prop where
  versions : AllVersions (fun x => record x ∈ s.complete → record x ∈ s.engine.wal.log) s.engine
  pending : ∀ r ∈ s.pending, r ∈ s.engine.wal.log
  inStep : InStep s.engine
  ticking : Ticking s.engine

theorem construct_sound {complete : List WalRecord} (cfg : EngineConfig) (hstep : InStep e) (hticking : Ticking e)
    (htables : ∀ md ∈ e.sstableMetadata, ∀ x ∈ e.tableEntries md, record x ∈ complete →
      record x ∈ reached e.wal.file) :
    Sound ⟨construct cfg e.directory, [], complete⟩ ∧ Covered ⟨construct cfg e.directory, [], complete⟩ := by
  have hlogged := construct_rebuilt (W := fun x => record x ∈ complete → record x ∈ e.wal.file) cfg hstep
    (fun md hmd x hx hc => WAL.reached_subset _ _ (htables md hmd x hx hc)) (fun x hx _ => WAL.mem_of_replayed hx)
  have hclock := construct_rebuilt (W := fun x => record x ∈ complete → x.timestamp ≤ clock e.wal.file) cfg hstep
    (fun md hmd x hx hc => hticking.file.le_clock (htables md hmd x hx hc))
    (fun x hx _ => WAL.replayed_le_clock hx)
  have hsub : ∀ r ∈ e.wal.file, r ∈ (construct cfg e.directory).wal.log := by
    intro r hr
    rcases hlogged.log with ⟨hlog, heq | ⟨cs, heq, -⟩⟩
    · rw [hlog, heq]
      exact hr
    · rw [hlog, heq]
      exact List.mem_append_left _ (List.mem_append_left _ hr)
  constructor
  · exact ⟨hlogged.versions.mono fun x hx hc => hsub _ (hx hc), fun _ hr => (by cases hr),
      construct_inStep cfg e.directory, hlogged.ticking hticking.file⟩
  · intro md hmd x hx _ hc
    rw [hclock.globalTs]
    exact hclock.versions.tables md hmd x hx hc

theorem Sound.call {s : State} {a : BatchIsolation.Action} {t : BatchIsolation.State} (h : Sound s)
    (hs : BatchIsolation.step ⟨s.engine, []⟩ a = some t) : Sound (afterCall s t.engine t.writes a) := by
  obtain ⟨rs, hlog, hwrites⟩ := call_log hs
  have hold : ∀ r ∈ s.engine.wal.log, r ∈ t.engine.wal.log := by
    intro r hr
    rw [hlog]
    exact List.mem_append_left _ hr
  have hnew : ∀ r ∈ t.writes.map record, r ∈ t.engine.wal.log := by
    intro r hr
    obtain ⟨w, hw, rfl⟩ := List.mem_map.mp hr
    rw [hlog]
    exact List.mem_append_right _ (hwrites w hw)
  have hversions : ∀ complete : List WalRecord, (∀ r ∈ complete, r ∈ s.complete ∨ r ∈ t.engine.wal.log) →
      AllVersions (fun x => record x ∈ complete → record x ∈ t.engine.wal.log) t.engine := by
    intro complete hcomplete
    have hmono : AllVersions (fun x => record x ∈ complete → record x ∈ t.engine.wal.log) s.engine := by
      refine h.versions.mono ?_
      intro x hx hc
      exact (hcomplete _ hc).elim (fun hc => hold _ (hx hc)) id
    exact hmono.call hs fun w hw _ => hnew _ (List.mem_map_of_mem hw)
  have hsound : ∀ pending complete : List WalRecord, (∀ r ∈ pending, r ∈ s.pending ∨ r ∈ t.writes.map record) →
      (∀ r ∈ complete, r ∈ s.complete ∨ r ∈ s.pending ∨ r ∈ t.writes.map record) →
      Sound ⟨t.engine, pending, complete⟩ := by
    intro pending complete hpending hcomplete
    refine ⟨hversions complete ?_, ?_, InStep.call h.inStep hs, h.ticking.call hs⟩
    · intro r hr
      rcases hcomplete r hr with hr | hr | hr
      · exact .inl hr
      · exact .inr (hold r (h.pending r hr))
      · exact .inr (hnew r hr)
    · intro r hr
      rcases hpending r hr with hr | hr
      · exact hold r (h.pending r hr)
      · exact hnew r hr
  have hkeep : Sound ⟨t.engine, s.pending, s.complete⟩ := hsound _ _ (fun _ => .inl) (fun _ => .inl)
  have hclear : ∀ b : Bool, Sound ⟨t.engine, if b then [] else s.pending, s.complete⟩ := by
    intro b
    cases b with
    | true => exact hsound _ _ (fun _ hr => by cases hr) (fun _ => .inl)
    | false => exact hkeep
  have hnormal : Sound ⟨t.engine, s.pending, s.complete ++ t.writes.map record⟩ :=
    hsound _ _ (fun _ => .inl) fun _ hr => (List.mem_append.mp hr).imp_right .inr
  have hbatch : Sound ⟨t.engine, s.pending ++ t.writes.map record, s.complete⟩ :=
    hsound _ _ (fun _ hr => List.mem_append.mp hr) (fun _ => .inl)
  cases a with
  | insert key value => exact hnormal
  | delete key => exact hnormal
  | batchInsert key value => exact hbatch
  | batchDelete key => exact hbatch
  | startBatch => exact hclear _
  | abortBatch => exact hclear _
  | commitBatchFinalize =>
    unfold afterCall
    simp only []
    split
    · exact hsound _ _ (fun _ hr => by cases hr) fun _ hr => (List.mem_append.mp hr).imp_right .inl
    · exact hkeep
  | commitBatchAsync => exact hkeep
  | sync force => exact hkeep
  | rotate => exact hkeep
  | flushWorker => exact hkeep
  | lookup key => exact hkeep
  | evict keepHeavy keepBlock => exact hkeep

theorem Sound.reopen {s t : State} {a : Action} (h : Sound s) (hopen : a.reopens = true) (hok : Allowed s a)
    (hs : step s a = some t) : Sound t ∧ Covered t := by
  cases a with
  | call a => cases hopen
  | trimWAL => cases hopen
  | crash cfg =>
    cases hs
    exact construct_sound cfg h.inStep h.ticking hok
  | close cfg =>
    cases hs
    have hversions : AllVersions (fun x => record x ∈ s.complete → record x ∈ reached s.engine.wal.log) s.engine :=
      ⟨hok.2.1, hok.2.2, hok.1⟩
    have hclosed := close_closing hversions h.inStep h.ticking
    exact construct_sound cfg hclosed.inStep hclosed.ticking fun md hmd x hx hc =>
      hclosed.reached _ (hclosed.versions.tables md hmd x hx hc)

theorem Sound.step {s t : State} {a : Action} (h : Sound s) (hok : Allowed s a)
    (hs : ReopenedClock.step s a = some t) : Sound t := by
  cases a with
  | call a =>
    obtain ⟨t', ht', rfl⟩ := Option.map_eq_some_iff.mp hs
    exact h.call ht'
  | trimWAL =>
    obtain ⟨w, hw, rfl⟩ := Option.map_eq_some_iff.mp hs
    obtain ⟨hlog, hfile⟩ := WAL.trim_log hw
    refine ⟨?_, ?_, h.inStep.congr rfl rfl, ?_⟩
    · have hversions := h.versions
      rw [← hlog] at hversions
      exact hversions.same rfl rfl rfl rfl
    · have hpending := h.pending
      rw [← hlog] at hpending
      exact hpending
    · exact Clocked.keep h.ticking hlog (.inr hfile) (fun _ => Nat.le_refl _) h.ticking.idle
  | crash cfg => exact (h.reopen rfl hok hs).1
  | close cfg => exact (h.reopen rfl hok hs).1

theorem init_sound (cfg : EngineConfig) : Sound (init cfg) := by
  have hempty : InStep (openDirectory cfg Directory.empty) := openDirectory_inStep cfg Directory.empty
  refine (@construct_sound (openDirectory cfg Directory.empty) [] cfg hempty ?_ (fun _ hmd => (by cases hmd))).1
  refine ⟨?_, ?_, ?_, ?_⟩
  · exact fun _ _ _ hin => (by cases hin)
  · exact fun _ _ _ hin => (by cases hin)
  · exact fun _ _ _ _ hin => (by cases hin)
  · exact fun _ => ⟨rfl, Nat.le_refl _⟩

/-- In every run in which, whenever the engine is reopened, recovery reads the records of the complete versions
in the tables, the reopened engine's `global_ts_` is not below any of these versions. -/
theorem reopened_clock_covers (cfg : EngineConfig) (acts : List Action) (s t : State) (a : Action)
    (hrun : Run step Allowed (init cfg) acts s) (hopen : a.reopens = true) (hok : Allowed s a)
    (hs : step s a = some t) : Covered t := by
  have hsound : Sound s :=
    hrun.invariant (I := Sound) (fun _ _ _ hok hs h => h.step hok hs) (init_sound cfg)
  exact (hsound.reopen hopen hok hs).2

instance decidableRecorded (s : State) (log : List WalRecord) (xs : List KeyValuePair) :
    Decidable (Recorded s log xs) := inferInstanceAs (Decidable (∀ x ∈ xs, _))

instance decidableAllowed (s : State) (a : Action) : Decidable (Allowed s a) := by
  cases a <;> unfold Allowed <;> infer_instance

instance decidableCovered (s : State) : Decidable (Covered s) :=
  inferInstanceAs (Decidable (∀ md ∈ s.engine.sstableMetadata, ∀ x ∈ s.engine.tableEntries md, _))

def calls (as : List BatchIsolation.Action) : List Action := as.map Action.call

/-- A batch of one key, committed. -/
def committedBatch : List BatchIsolation.Action :=
  [.startBatch, .batchInsert [1] [2], .commitBatchAsync, .sync true, .commitBatchFinalize]

/-- The batch is flushed, the log is trimmed, the engine is closed and reopened, and a write is synced. -/
def coveredRun : List Action :=
  calls (committedBatch ++ ([.rotate, .flushWorker] : List BatchIsolation.Action)) ++
    ([.trimWAL, .close smallConfig, .call (.insert [3] [4]), .call (.sync true)] : List Action)

theorem coveredRun_allowed : (checked step Allowed (init smallConfig) coveredRun).isSome = true := by
  decide +kernel

def coveredState : State := (checked step Allowed (init smallConfig) coveredRun).get coveredRun_allowed

theorem reopened_clock_covers_coveredRun :
    Run step Allowed (init smallConfig) coveredRun coveredState ∧
      ∃ t, step coveredState (.crash smallConfig) = some t ∧ t.engine.sstableMetadata.length = 3 ∧ Covered t := by
  have hrun : Run step Allowed (init smallConfig) coveredRun coveredState := Run.of_isSome _ _ coveredRun_allowed
  refine ⟨hrun, _, rfl, by decide +kernel, ?_⟩
  exact reopened_clock_covers smallConfig coveredRun coveredState _ (.crash smallConfig) hrun rfl
    (by decide +kernel) rfl

/-- The batch is flushed, then a write; everything is synced. -/
def hiddenRun : List Action :=
  calls (committedBatch ++
    ([.rotate, .flushWorker, .insert [3] [4], .rotate, .flushWorker, .sync true] : List BatchIsolation.Action))

theorem hiddenRun_enabled : (checked step anyStep (init smallConfig) hiddenRun).isSome = true := by
  decide

def hiddenState : State := (checked step anyStep (init smallConfig) hiddenRun).get hiddenRun_enabled

/-- After a crash there the clock is 1, and the write of timestamp 3 in the second table is not found. -/
theorem reopened_clock_hides_write :
    Run step anyStep (init smallConfig) hiddenRun hiddenState ∧
      ∃ t, step hiddenState (.crash smallConfig) = some t ∧ t.engine.globalTs = 1 ∧
        record ⟨[3], [4], 3, false⟩ ∈ t.complete ∧ (t.engine.lookup [3]).1 = none ∧ ¬ Covered t := by
  refine ⟨Run.of_isSome _ _ hiddenRun_enabled, _, rfl, ?_⟩
  decide

end Kvdb.ReopenedClock
