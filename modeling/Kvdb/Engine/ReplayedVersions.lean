import Kvdb.MemTable.Flags
import Kvdb.Engine.ReopenedClock

/-! # The versions that a replay gives back

Before the first flush the log has every write of the engine in order. `RecoverFromWAL` inserts the entries of the log
into memtables that fill up at the same entries as those before the crash, so the two hold the same versions up to the
tombstone flag: neither the record nor the insertion of the replay carries it. -/
namespace Kvdb.ReplayedVersions
set_option autoImplicit false

open Kvdb.Runs Kvdb.Engine
open Kvdb.ReopenedClock (logged_applyWrite log_append lookupAt_keeps foldl_markAborted_keeps)

/-- The calls before any flush: writes, batches, syncs and lookups. -/
def step (e : Engine) (a : BatchIsolation.Action) : Option Engine :=
  match a with
  | .rotate => none
  | .flushWorker => none
  | a => (BatchIsolation.step ⟨e, []⟩ a).map BatchIsolation.State.engine

def memtables (e : Engine) : List MemTable := e.frozenMemtables ++ [e.activeMemtable]

def versions (ms : List MemTable) : List KeyValuePair := ms.flatMap MemTable.entries

/-- The memtables that the replay fills, as they are when they are flushed. -/
def filled : Engine → List KeyValuePair → List MemTable
  | e, [] => [e.activeMemtable]
  | e, kv :: kvs =>
    let m := (e.memInsert kv.key kv.value kv.timestamp false).activeMemtable
    if m.isFull then m :: filled (e.replayEntry kv) kvs else filled (e.replayEntry kv) kvs

/-- The memtables of the recovery from a directory. -/
def rebuilt (cfg : EngineConfig) (d : Directory) : List MemTable :=
  filled (replayStart cfg d) (WAL.recover d.wal).entries

/-! ## Filling memtables -/

/-- One insertion, with the full trees so far and the tree that is being filled. -/
def fillStep (maxBytes : ℕ) (p : List BPlusTree × BPlusTree) (kv : KeyValuePair) : List BPlusTree × BPlusTree :=
  if maxBytes ≤ (p.2.insert kv).memoryUsage then (p.1 ++ [p.2.insert kv], BPlusTree.empty) else (p.1, p.2.insert kv)

def fill (maxBytes : ℕ) (kvs : List KeyValuePair) : List BPlusTree × BPlusTree :=
  kvs.foldl (fillStep maxBytes) ([], BPlusTree.empty)

/-- The memtables without the flags, the marks and their numbers. -/
def shapes (e : Engine) : List BPlusTree × BPlusTree × ℕ × Bool :=
  (e.frozenMemtables.map fun m => m.tree.unflagged, e.activeMemtable.tree.unflagged, e.activeMemtable.maxBytes,
    e.activeMemtable.frozen)

/-- The memtables are what the entries of the log fill. -/
structure Mirrored (maxBytes : ℕ) (e : Engine) : Prop where
  config : e.cfg.memtableMaxBytes = maxBytes
  frozen : (e.frozenMemtables.map fun m => m.tree.unflagged) = (fill maxBytes (WAL.replayEntries e.wal.log)).1
  active : e.activeMemtable.tree.unflagged = (fill maxBytes (WAL.replayEntries e.wal.log)).2
  bound : e.activeMemtable.maxBytes = maxBytes
  unfrozen : e.activeMemtable.frozen = false
  log : ∀ r ∈ e.wal.log, r.isCheckpoint = false
  inStep : InStep e
  catalogue : e.sstableMetadata = []
  sstableSeq : e.sstableSeq = 0

variable {maxBytes : ℕ} {e e' : Engine}

theorem create_mirrored (cfg : EngineConfig) : Mirrored cfg.memtableMaxBytes (create cfg) where
  config := rfl
  frozen := rfl
  active := rfl
  bound := rfl
  unfrozen := rfl
  log := fun _ hr => by cases hr
  inStep := construct_inStep cfg Directory.empty
  catalogue := rfl
  sstableSeq := rfl

/-- A call that appends no entry to the log and changes no version. -/
theorem Mirrored.quiet (h : Mirrored maxBytes e) (hin : InStep e') (hcfg : e'.cfg = e.cfg)
    (hshapes : shapes e' = shapes e) (rs : List WalRecord) (hlog : e'.wal.log = e.wal.log ++ rs)
    (hrs : ∀ r ∈ rs, r.isCheckpoint = false) (hnone : WAL.replayEntries rs = [])
    (hcat : e.sstableMetadata = [] → e'.sstableMetadata = [])
    (hseq : e'.sstableSeq = e.sstableSeq) : Mirrored maxBytes e' where
  config := by
    rw [hcfg]
    exact h.config
  frozen := by
    rw [hlog, WAL.replayEntries_append, hnone, List.append_nil, ← h.frozen]
    exact congrArg (fun p => p.1) hshapes
  active := by
    rw [hlog, WAL.replayEntries_append, hnone, List.append_nil, ← h.active]
    exact congrArg (fun p => p.2.1) hshapes
  bound := (congrArg (fun p => p.2.2.1) hshapes).trans h.bound
  unfrozen := (congrArg (fun p => p.2.2.2) hshapes).trans h.unfrozen
  log := by
    intro r hr
    rw [hlog] at hr
    rcases List.mem_append.mp hr with hold | hnew
    · exact h.log r hold
    · exact hrs r hnew
  inStep := hin
  catalogue := hcat h.catalogue
  sstableSeq := hseq.trans h.sstableSeq

theorem fill_append (kvs : List KeyValuePair) (kv : KeyValuePair) :
    fill maxBytes (kvs ++ [kv]) = fillStep maxBytes (fill maxBytes kvs) kv := by
  rw [fill, List.foldl_append]
  rfl

theorem Mirrored.applyWrite (h : Mirrored maxBytes e) (key value : Bytes) (isTombstone : Bool) (ts : ℕ) :
    Mirrored maxBytes (e.applyWrite key value isTombstone ts) := by
  have hlog : (e.applyWrite key value isTombstone ts).wal.log = e.wal.log ++ [.entry key value ts] := by
    have hwal : (e.applyWrite key value isTombstone ts).wal = e.wal.buffer key value ts :=
      congrArg Prod.fst (logged_applyWrite e key value isTombstone ts)
    rw [hwal]
    exact log_append e.wal _ _
  have hentries : WAL.replayEntries (e.applyWrite key value isTombstone ts).wal.log =
      WAL.replayEntries e.wal.log ++ [⟨key, value, ts, false⟩] := by
    rw [hlog, WAL.replayEntries_append]
    rfl
  have hactive : ((e.bufferWrite key value ts).memInsert key value ts isTombstone).activeMemtable =
      { e.activeMemtable with tree := e.activeMemtable.tree.insert ⟨key, value, ts, isTombstone⟩ } := by
    simp only [memInsert, bufferWrite, MemTable.insert, h.unfrozen, Bool.false_eq_true, if_false]
  have htree : (e.activeMemtable.tree.insert ⟨key, value, ts, isTombstone⟩).unflagged =
      (fill maxBytes (WAL.replayEntries e.wal.log)).2.insert ⟨key, value, ts, false⟩ := by
    rw [BPlusTree.insert_unflagged, h.active]
    rfl
  have husage := congrArg BPlusTree.memoryUsage htree
  rw [BPlusTree.memoryUsage_unflagged] at husage
  have hcheck : ∀ r ∈ (e.applyWrite key value isTombstone ts).wal.log, r.isCheckpoint = false := by
    intro r hr
    rw [hlog] at hr
    rcases List.mem_append.mp hr with hold | hnew
    · exact h.log r hold
    · rw [List.mem_singleton.mp hnew]
      rfl
  have hin := ReopenedClock.InStep.applyWrite h.inStep key value isTombstone ts
  have hfull : ((e.bufferWrite key value ts).memInsert key value ts isTombstone).activeMemtable.isFull =
      decide (maxBytes ≤ ((fill maxBytes (WAL.replayEntries e.wal.log)).2.insert ⟨key, value, ts, false⟩).memoryUsage) := by
    rw [hactive, MemTable.isFull, ← husage, ← h.bound]
  by_cases hle : maxBytes ≤ ((fill maxBytes (WAL.replayEntries e.wal.log)).2.insert ⟨key, value, ts, false⟩).memoryUsage
  · have hrotated : e.applyWrite key value isTombstone ts =
        ((e.bufferWrite key value ts).memInsert key value ts isTombstone).rotate := by
      simp only [Engine.applyWrite, freezeIfFull, hfull, hle, decide_true, if_true]
    rw [hrotated] at hentries hcheck hin ⊢
    refine ⟨h.config, ?_, ?_, h.config, rfl, hcheck, hin, h.catalogue, h.sstableSeq⟩
    · rw [hentries, fill_append, fillStep, if_pos hle, ← h.frozen, ← htree]
      simp only [rotate, hactive, List.map_append, List.map_cons, List.map_nil]
      rfl
    · rw [hentries, fill_append, fillStep, if_pos hle]
      rfl
  · have hkept : e.applyWrite key value isTombstone ts =
        (e.bufferWrite key value ts).memInsert key value ts isTombstone := by
      simp only [Engine.applyWrite, freezeIfFull, hfull, hle, decide_false, Bool.false_eq_true, if_false]
    rw [hkept] at hentries hcheck hin ⊢
    refine ⟨h.config, ?_, ?_, ?_, ?_, hcheck, hin, h.catalogue, h.sstableSeq⟩
    · rw [hentries, fill_append, fillStep, if_neg hle, ← h.frozen]
      rfl
    · rw [hentries, fill_append, fillStep, if_neg hle, hactive]
      exact htree
    · rw [hactive]
      exact h.bound
    · rw [hactive]
      exact h.unfrozen

/-- A call that leaves the log, the memtables and the catalogue alone. -/
theorem Mirrored.still (h : Mirrored maxBytes e) (hin : InStep e') (hcfg : e'.cfg = e.cfg)
    (hshapes : shapes e' = shapes e) (hlog : e'.wal.log = e.wal.log)
    (hcat : e'.sstableMetadata = e.sstableMetadata) (hseq : e'.sstableSeq = e.sstableSeq) : Mirrored maxBytes e' :=
  h.quiet hin hcfg hshapes [] (by rw [hlog, List.append_nil]) (fun _ hr => by cases hr) rfl
    (fun hnil => hcat.trans hnil) hseq

/-- A call that appends a marker of a batch. -/
theorem Mirrored.marker (h : Mirrored maxBytes e) (hin : InStep e') (hcfg : e'.cfg = e.cfg)
    (hshapes : shapes e' = shapes e) {r : WalRecord} (hlog : e'.wal.log = e.wal.log ++ [r])
    (hr : r.isCheckpoint = false) (hnone : WAL.replayEntries [r] = [])
    (hcat : e.sstableMetadata = [] → e'.sstableMetadata = []) (hseq : e'.sstableSeq = e.sstableSeq) :
    Mirrored maxBytes e' := by
  refine h.quiet hin hcfg hshapes [r] hlog ?_ hnone hcat hseq
  intro r' hr'
  rw [List.mem_singleton.mp hr']
  exact hr

theorem shapes_addAbortedBatch (e : Engine) (ts : ℕ) :
    shapes { e with
      activeMemtable := e.activeMemtable.addAbortedBatch ts
      frozenMemtables := e.frozenMemtables.map fun m => m.addAbortedBatch ts } = shapes e := by
  simp only [shapes, List.map_map]
  rfl

theorem Mirrored.abortBatch (h : Mirrored maxBytes e) : Mirrored maxBytes e.abortBatch.2 := by
  have hin := ReopenedClock.InStep.abortBatch h.inStep
  by_cases hbatch : e.batchInProgress = true
  · by_cases htouched : e.batchTouched = true
    · simp only [Engine.abortBatch, hbatch, htouched, if_true] at hin ⊢
      refine h.marker hin rfl (shapes_addAbortedBatch e e.batchTs)
        ((WAL.sync_log (e.wal.bufferAbort e.batchTs) true).1.trans (log_append e.wal _ _)) rfl rfl ?_ rfl
      intro hnil
      simp only [hnil, List.map_nil]
    · simp only [Engine.abortBatch, hbatch, htouched, if_true, Bool.false_eq_true, if_false] at hin ⊢
      exact h.still hin rfl rfl rfl rfl rfl
  · simp only [Engine.abortBatch, hbatch, Bool.false_eq_true, if_false] at hin ⊢
    exact h

theorem Mirrored.call (h : Mirrored maxBytes e) {a : BatchIsolation.Action} {t : BatchIsolation.State}
    (hs : BatchIsolation.step ⟨e, []⟩ a = some t) (hrotate : a ≠ .rotate) (hflush : a ≠ .flushWorker) :
    Mirrored maxBytes t.engine := by
  have hin := ReopenedClock.InStep.call h.inStep hs
  cases a with
  | insert key value =>
    obtain ⟨e1, n, hret, rfl⟩ := BatchIsolation.afterWrite_eq_some hs
    obtain ⟨-, -, rfl⟩ := insert_returned hret
    have htick : Mirrored maxBytes e.tick := h.still (h.inStep.congr rfl rfl) rfl rfl rfl rfl rfl
    exact (htick.applyWrite key value false (e.globalTs + 1)).still hin rfl rfl rfl rfl rfl
  | delete key =>
    obtain ⟨e1, n, hret, rfl⟩ := BatchIsolation.afterWrite_eq_some hs
    obtain ⟨-, -, rfl⟩ := delete_returned hret
    have htick : Mirrored maxBytes e.tick := h.still (h.inStep.congr rfl rfl) rfl rfl rfl rfl rfl
    exact (htick.applyWrite key [] true (e.globalTs + 1)).still hin rfl rfl rfl rfl rfl
  | batchInsert key value =>
    obtain ⟨e1, n, hret, rfl⟩ := BatchIsolation.afterWrite_eq_some hs
    rw [BatchIsolation.batchInsert_returned hret]
    have htouched : Mirrored maxBytes { e with batchTouched := true } :=
      h.still (h.inStep.congr rfl rfl) rfl rfl rfl rfl rfl
    exact htouched.applyWrite key value false e.batchTs
  | batchDelete key =>
    obtain ⟨e1, n, hret, rfl⟩ := BatchIsolation.afterWrite_eq_some hs
    rw [BatchIsolation.batchDelete_returned hret]
    have htouched : Mirrored maxBytes { e with batchTouched := true } :=
      h.still (h.inStep.congr rfl rfl) rfl rfl rfl rfl rfl
    exact htouched.applyWrite key [] true e.batchTs
  | startBatch =>
    cases hs
    simp only [Engine.startBatch] at hin ⊢
    split
    · exact h
    · next hidle =>
      rw [if_neg hidle] at hin
      exact h.marker hin rfl rfl (log_append e.wal _ _) rfl rfl id rfl
  | commitBatchAsync =>
    cases hs
    simp only [Engine.commitBatchAsync] at hin ⊢
    split
    · next hbatch =>
      rw [if_pos hbatch] at hin
      exact h.marker hin rfl rfl (log_append e.wal _ _) rfl rfl id rfl
    · exact h
  | commitBatchFinalize =>
    cases hs
    simp only [Engine.commitBatchFinalize] at hin ⊢
    split
    · next hdone =>
      rw [if_pos hdone] at hin
      exact h.still hin rfl rfl rfl rfl rfl
    · exact h
  | abortBatch =>
    cases hs
    exact h.abortBatch
  | sync force =>
    cases hs
    exact h.still hin rfl rfl (WAL.sync_log e.wal force).1 rfl rfl
  | rotate => exact absurd rfl hrotate
  | flushWorker => exact absurd rfl hflush
  | lookup key =>
    cases hs
    exact h.still hin (lookupAt_keeps Engine.cfg e key _ fun _ _ => rfl) (lookupAt_keeps shapes e key _ fun _ _ => rfl)
      (congrArg WAL.log (lookupAt_keeps Engine.wal e key _ fun _ _ => rfl))
      (lookupAt_keeps Engine.sstableMetadata e key _ fun _ _ => rfl)
      (lookupAt_keeps Engine.sstableSeq e key _ fun _ _ => rfl)
  | evict keepHeavy keepBlock =>
    cases hs
    exact h.still hin rfl rfl rfl rfl rfl

theorem Mirrored.step (h : Mirrored maxBytes e) {a : BatchIsolation.Action}
    (hs : ReplayedVersions.step e a = some e') : Mirrored maxBytes e' := by
  unfold ReplayedVersions.step at hs
  split at hs
  · cases hs
  · cases hs
  · next hrotate hflush =>
    obtain ⟨t, ht, rfl⟩ := Option.map_eq_some_iff.mp hs
    exact h.call ht hrotate hflush

/-! ## The replay -/

theorem lastCheckpoint_none {rs : List WalRecord} (h : ∀ r ∈ rs, r.isCheckpoint = false)
    (best : (ℕ × ℕ) × List WalRecord) : WAL.lastCheckpoint rs best = best := by
  induction rs with
  | nil => rfl
  | cons r rs ih =>
    have hr := h r List.mem_cons_self
    have hrest := ih fun r' hr' => h r' (List.mem_cons_of_mem _ hr')
    cases r with
    | checkpoint ts batchTs => cases hr
    | entry key value ts => exact hrest
    | batchBegin ts => rfl
    | batchCommit ts => rfl
    | abort ts => exact hrest

theorem recover_entries {file : List WalRecord} (h : ∀ r ∈ file, r.isCheckpoint = false) :
    (WAL.recover file).entries = WAL.replayEntries file := by
  simp only [WAL.recover, lastCheckpoint_none h, WAL.secondPass_eq h]

theorem replayEntries_unflagged (rs : List WalRecord) : ∀ kv ∈ WAL.replayEntries rs, kv.isTombstone = false :=
  fun kv hkv => ((WAL.mem_replayEntries rs kv).mp hkv).1

theorem replayEntry_full (e : Engine) (kv : KeyValuePair)
    (h : (e.memInsert kv.key kv.value kv.timestamp false).activeMemtable.isFull = true) :
    e.replayEntry kv =
      ((e.memInsert kv.key kv.value kv.timestamp false).raiseTs kv.timestamp).flushActive.writeCheckpoint := if_pos h

theorem replayEntry_kept (e : Engine) (kv : KeyValuePair)
    (h : (e.memInsert kv.key kv.value kv.timestamp false).activeMemtable.isFull ≠ true) :
    e.replayEntry kv = (e.memInsert kv.key kv.value kv.timestamp false).raiseTs kv.timestamp := if_neg h

@[simp] theorem flushActive_activeMemtable (e : Engine) :
    e.flushActive.activeMemtable = MemTable.new e.nextTableId e.cfg.memtableMaxBytes :=
  doFlush_activeMemtable _ _

@[simp] theorem flushActive_cfg (e : Engine) : e.flushActive.cfg = e.cfg := doFlush_keeps Engine.cfg _ _ fun _ _ => rfl

/-- The memtables of the replay have the trees that the entries fill. -/
theorem filled_trees (kvs : List KeyValuePair) (hflags : ∀ kv ∈ kvs, kv.isTombstone = false) (e : Engine)
    (hconfig : e.cfg.memtableMaxBytes = maxBytes) (hbound : e.activeMemtable.maxBytes = maxBytes)
    (hunfrozen : e.activeMemtable.frozen = false) (full : List BPlusTree) :
    full ++ (filled e kvs).map (fun m => m.tree.unflagged) =
      (kvs.foldl (fillStep maxBytes) (full, e.activeMemtable.tree.unflagged)).1 ++
        [(kvs.foldl (fillStep maxBytes) (full, e.activeMemtable.tree.unflagged)).2] := by
  induction kvs generalizing e full with
  | nil => rfl
  | cons kv kvs ih =>
    have hkv : kv.isTombstone = false := hflags kv List.mem_cons_self
    have hrest : ∀ kv' ∈ kvs, kv'.isTombstone = false := fun kv' hkv' => hflags kv' (List.mem_cons_of_mem _ hkv')
    have hentry : (⟨kv.key, kv.value, kv.timestamp, false⟩ : KeyValuePair) = kv := by
      rw [← hkv]
    have hactive : (e.memInsert kv.key kv.value kv.timestamp false).activeMemtable =
        { e.activeMemtable with tree := e.activeMemtable.tree.insert kv } := by
      simp only [memInsert, MemTable.insert, hunfrozen, Bool.false_eq_true, if_false, hentry]
    have htree : (e.activeMemtable.tree.insert kv).unflagged = e.activeMemtable.tree.unflagged.insert kv := by
      rw [BPlusTree.insert_unflagged]
      exact congrArg _ hentry
    have hfull : (e.memInsert kv.key kv.value kv.timestamp false).activeMemtable.isFull =
        decide (maxBytes ≤ (e.activeMemtable.tree.unflagged.insert kv).memoryUsage) := by
      rw [hactive, MemTable.isFull, hbound, ← htree]
      rfl
    simp only [filled, List.foldl_cons]
    by_cases hle : maxBytes ≤ (e.activeMemtable.tree.unflagged.insert kv).memoryUsage
    · have hisFull : (e.memInsert kv.key kv.value kv.timestamp false).activeMemtable.isFull = true := by
        rw [hfull, decide_eq_true hle]
      have hnext : (e.replayEntry kv).activeMemtable = MemTable.new e.nextTableId e.cfg.memtableMaxBytes := by
        rw [replayEntry_full e kv hisFull]
        exact flushActive_activeMemtable _
      have hcfg : (e.replayEntry kv).cfg = e.cfg := by
        rw [replayEntry_full e kv hisFull]
        exact flushActive_cfg _
      rw [if_pos hisFull, fillStep, if_pos hle, List.map_cons, ← List.singleton_append, ← List.append_assoc, hactive]
      have hstep := ih hrest (e.replayEntry kv) (by rw [hcfg]; exact hconfig) (by rw [hnext]; exact hconfig)
        (by rw [hnext]; rfl) (full ++ [e.activeMemtable.tree.unflagged.insert kv])
      rw [hnext] at hstep
      simp only [htree]
      exact hstep
    · have hnotFull : (e.memInsert kv.key kv.value kv.timestamp false).activeMemtable.isFull ≠ true := by
        rw [hfull, decide_eq_false hle]
        exact Bool.false_ne_true
      have hnext : (e.replayEntry kv).activeMemtable =
          { e.activeMemtable with tree := e.activeMemtable.tree.insert kv } := by
        rw [replayEntry_kept e kv hnotFull]
        exact hactive
      have hcfg : (e.replayEntry kv).cfg = e.cfg := by
        rw [replayEntry_kept e kv hnotFull]
        rfl
      rw [if_neg hnotFull, fillStep, if_neg hle]
      have hstep := ih hrest (e.replayEntry kv) (by rw [hcfg]; exact hconfig) (by rw [hnext]; exact hbound)
        (by rw [hnext]; exact hunfrozen) full
      rw [hnext] at hstep
      simp only [htree] at hstep
      exact hstep

/-- What the replay inserts is no tombstone. -/
theorem filled_flags (kvs : List KeyValuePair) (e : Engine)
    (hactive : ∀ x ∈ e.activeMemtable.entries, x.isTombstone = false) :
    ∀ m ∈ filled e kvs, ∀ x ∈ m.entries, x.isTombstone = false := by
  induction kvs generalizing e with
  | nil =>
    intro m hm
    rw [List.mem_singleton.mp hm]
    exact hactive
  | cons kv kvs ih =>
    have hins : ∀ x ∈ (e.memInsert kv.key kv.value kv.timestamp false).activeMemtable.entries,
        x.isTombstone = false := by
      intro x hx
      rcases MemTable.mem_insert hx with rfl | hold
      · rfl
      · exact hactive x hold
    intro m hm
    simp only [filled] at hm
    split at hm
    · next hfull =>
      rcases List.mem_cons.mp hm with rfl | hrest
      · exact hins
      · apply ih (e.replayEntry kv) _ m hrest
        rw [replayEntry_full e kv hfull]
        intro x hx
        have hnew : x ∈ (MemTable.new _ _).entries := (flushActive_activeMemtable _) ▸ hx
        rw [MemTable.entries_new] at hnew
        cases hnew
    · next hfull =>
      apply ih (e.replayEntry kv) _ m hm
      rw [replayEntry_kept e kv hfull]
      exact hins

/-- Some catalogued table has what a flush of the memtable writes. -/
def Written (e : Engine) (m : MemTable) : Prop :=
  ∃ md ∈ e.sstableMetadata, e.tableEntries md = SSTableFile.flushEntries m.tree.memTableWalk

theorem Written.congr {m : MemTable} (h : Written e m) (hcat : e'.sstableMetadata = e.sstableMetadata)
    (hfiles : e'.files = e.files) : Written e' m := by
  obtain ⟨md, hmd, hentries⟩ := h
  refine ⟨md, by rw [hcat]; exact hmd, ?_⟩
  rw [tableEntries_congr (congrFun hfiles _), hentries]

theorem Written.doFlush {m : MemTable} (h : Written e m) (hseq : Sequential e) (m' : MemTable) :
    Written (e.doFlush m') m := by
  rcases e.doFlush_cases m' with ⟨-, heq⟩ | ⟨-, md', cache, -, heq⟩
  · rw [heq]
    exact h
  · obtain ⟨md, hmd, hentries⟩ := h
    rw [heq]
    refine ⟨md, List.mem_append_left _ hmd, ?_⟩
    rw [tableEntries_congr (if_neg (Nat.ne_of_lt (hseq.below hmd))), hentries]

theorem doFlush_written {m : MemTable} (hm : m.entryCount ≠ 0) : Written (e.doFlush m) m := by
  rcases e.doFlush_cases m with ⟨hzero, -⟩ | ⟨-, md, cache, hmd, heq⟩
  · exact absurd hzero hm
  · rw [heq]
    refine ⟨md, List.mem_append_right _ List.mem_cons_self, ?_⟩
    have hfile : (e.afterFlush m md cache).files md.filepath = some (e.flushFile m) := by
      rw [hmd.filepath]
      exact if_pos rfl
    rw [tableEntries, hfile, Option.map_some, Option.getD_some, flushFile, SSTableFile.entries_writeFromWalk]

theorem flushActive_written (h : Sequential e) :
    Sequential e.flushActive ∧ (∀ m, Written e m → Written e.flushActive m) ∧
      (e.activeMemtable.entryCount ≠ 0 → Written e.flushActive e.activeMemtable) := by
  have hfresh : Sequential e.freshMemtable := h.congr rfl rfl rfl
  refine ⟨hfresh.doFlush _, ?_, ?_⟩
  · intro m hm
    have hm' : Written e.freshMemtable m := hm.congr rfl rfl
    exact hm'.doFlush hfresh _
  · intro hcount
    exact @doFlush_written e.freshMemtable e.activeMemtable.freeze hcount

theorem replayEntry_written (h : Sequential e) (kv : KeyValuePair) :
    Sequential (e.replayEntry kv) ∧ (∀ m, Written e m → Written (e.replayEntry kv) m) ∧
      ((e.memInsert kv.key kv.value kv.timestamp false).activeMemtable.isFull = true →
        (e.memInsert kv.key kv.value kv.timestamp false).activeMemtable.entryCount ≠ 0 →
          Written (e.replayEntry kv) (e.memInsert kv.key kv.value kv.timestamp false).activeMemtable) := by
  have hins : Sequential ((e.memInsert kv.key kv.value kv.timestamp false).raiseTs kv.timestamp) := h.congr rfl rfl rfl
  by_cases hfull : (e.memInsert kv.key kv.value kv.timestamp false).activeMemtable.isFull = true
  · obtain ⟨hseq, hkept, hnew⟩ := flushActive_written hins
    rw [replayEntry_full e kv hfull]
    refine ⟨hseq.congr rfl rfl rfl, ?_, ?_⟩
    · intro m hm
      have hm' : Written ((e.memInsert kv.key kv.value kv.timestamp false).raiseTs kv.timestamp) m := hm.congr rfl rfl
      exact (hkept m hm').congr rfl rfl
    · intro _ hcount
      exact (hnew hcount).congr rfl rfl
  · rw [replayEntry_kept e kv hfull]
    exact ⟨hins, fun m hm => hm.congr rfl rfl, fun h' => absurd h' hfull⟩

/-- The flushes of the replay: all memtables but the last are written. -/
theorem replay_written (kvs : List KeyValuePair) (e : Engine) (h : Sequential e) :
    Sequential (kvs.foldl replayEntry e) ∧ (∀ m, Written e m → Written (kvs.foldl replayEntry e) m) ∧
      ∀ m ∈ filled e kvs, m.entryCount ≠ 0 →
        Written (kvs.foldl replayEntry e) m ∨ m = (kvs.foldl replayEntry e).activeMemtable := by
  induction kvs generalizing e with
  | nil => exact ⟨h, fun _ hm => hm, fun m hm _ => Or.inr (List.mem_singleton.mp hm)⟩
  | cons kv kvs ih =>
    obtain ⟨hseq, hkept, hnew⟩ := replayEntry_written h kv
    obtain ⟨hseq', hkept', hfilled⟩ := ih (e.replayEntry kv) hseq
    refine ⟨hseq', fun m hm => hkept' m (hkept m hm), ?_⟩
    intro m hm hcount
    simp only [filled] at hm
    split at hm
    · next hfull =>
      rcases List.mem_cons.mp hm with rfl | hrest
      · exact Or.inl (hkept' _ (hnew hfull hcount))
      · exact hfilled m hrest hcount
    · exact hfilled m hm hcount

theorem finishReplay_written (h : Sequential e) {m : MemTable}
    (hm : Written e m ∨ m = e.activeMemtable) (hcount : m.entryCount ≠ 0) : Written e.finishReplay m := by
  obtain ⟨-, hkept, hnew⟩ := flushActive_written h
  unfold finishReplay
  split
  · rcases hm with hold | rfl
    · exact (hkept m hold).congr rfl rfl
    · exact (hnew hcount).congr rfl rfl
  · next hempty =>
    rcases hm with hold | rfl
    · exact hold.congr rfl rfl
    · exact absurd (Nat.pos_of_ne_zero hcount) hempty

/-! ## The start of the replay -/

theorem shapes_replayStart (cfg : EngineConfig) (d : Directory) :
    shapes (replayStart cfg d) = ([], BPlusTree.empty, cfg.memtableMaxBytes, false) :=
  foldl_markAborted_keeps shapes (fun _ _ => rfl) _ _

theorem cfg_replayStart (cfg : EngineConfig) (d : Directory) : (replayStart cfg d).cfg = cfg :=
  foldl_markAborted_keeps Engine.cfg (fun _ _ => rfl) _ _

theorem entries_replayStart (cfg : EngineConfig) (d : Directory) : (replayStart cfg d).activeMemtable.entries = [] :=
  foldl_markAborted_keeps (fun e => e.activeMemtable.entries) (fun _ _ => rfl) _ _

theorem entryCount_replayStart (cfg : EngineConfig) (d : Directory) :
    (replayStart cfg d).activeMemtable.entryCount = 0 :=
  foldl_markAborted_keeps (fun e => e.activeMemtable.entryCount) (fun _ _ => rfl) _ _

theorem Mirrored.sequential (h : Mirrored maxBytes e) : Sequential e := by
  refine ⟨h.inStep, ?_⟩
  rw [h.catalogue, h.sstableSeq]
  rfl

theorem Sequential.markAborted (h : Sequential e) (ts : ℕ) : Sequential (e.markAborted ts) := by
  constructor
  · refine ⟨h.inStep.removed, ?_⟩
    rw [show (e.markAborted ts).manifest = e.manifest from rfl, h.inStep.added]
    simp only [Engine.markAborted, List.map_map]
    rfl
  · rw [show (e.markAborted ts).sstableSeq = e.sstableSeq from rfl, ← h.paths]
    simp only [Engine.markAborted, List.map_map]
    rfl

theorem Mirrored.sequential_replayStart (h : Mirrored maxBytes e) (cfg : EngineConfig) :
    Sequential (replayStart cfg e.directory) := by
  have hopen : Sequential ((openDirectory cfg e.directory).raiseTs (WAL.recover e.directory.wal).checkpointTs) :=
    (h.sequential.openDirectory cfg).congr rfl rfl rfl
  unfold replayStart
  generalize (openDirectory cfg e.directory).raiseTs (WAL.recover e.directory.wal).checkpointTs = start at hopen ⊢
  induction (WAL.recover e.directory.wal).aborted generalizing start with
  | nil => exact hopen
  | cons ts aborted ih => exact ih (start.markAborted ts) (Sequential.markAborted hopen ts)

/-- Every memtable of the recovery that holds something has been flushed when the engine is open again. -/
theorem Mirrored.construct_written (h : Mirrored maxBytes e) (cfg : EngineConfig) :
    ∀ m ∈ rebuilt cfg e.directory, m.entryCount ≠ 0 → Written (construct cfg e.directory) m := by
  intro m hm hcount
  have hrecovered : Written (openDirectory cfg e.directory).recoverFromWAL m := by
    show Written (if (WAL.recover e.directory.wal).entries.isEmpty = true then replayStart cfg e.directory
      else ((WAL.recover e.directory.wal).entries.foldl replayEntry (replayStart cfg e.directory)).finishReplay) m
    split
    · next hempty =>
      rw [rebuilt, List.isEmpty_iff.mp hempty] at hm
      rw [List.mem_singleton.mp hm] at hcount
      exact absurd (entryCount_replayStart cfg e.directory) hcount
    · obtain ⟨hseq, -, hfilled⟩ := replay_written (WAL.recover e.directory.wal).entries _
        (h.sequential_replayStart cfg)
      exact finishReplay_written hseq (hfilled m hm hcount) hcount
  exact hrecovered.congr rfl rfl

theorem unflagged_eq_self {v : KeyValuePair} (h : v.isTombstone = false) : v.unflagged = v := by
  rw [KeyValuePair.unflagged, ← h]

/-- The versions that the recovery rebuilds are those before the crash with their flags cleared. -/
theorem Mirrored.versions_rebuilt (cfg : EngineConfig) (h : Mirrored cfg.memtableMaxBytes e)
    (hsynced : e.wal.writeBuf = []) :
    versions (rebuilt cfg e.directory) = (versions (memtables e)).map KeyValuePair.unflagged := by
  have hwal : e.directory.wal = e.wal.log := by
    rw [WAL.log, hsynced, List.append_nil]
    rfl
  have hshapes := shapes_replayStart cfg e.directory
  have hactive : (replayStart cfg e.directory).activeMemtable.tree.unflagged = BPlusTree.empty :=
    congrArg (fun p => p.2.1) hshapes
  have hentries : (WAL.recover e.directory.wal).entries = WAL.replayEntries e.wal.log := by
    rw [hwal]
    exact recover_entries h.log
  have htrees := filled_trees (WAL.replayEntries e.wal.log) (replayEntries_unflagged _) (replayStart cfg e.directory)
    (by rw [cfg_replayStart]) (congrArg (fun p => p.2.2.1) hshapes) (congrArg (fun p => p.2.2.2) hshapes) []
  rw [hactive, List.nil_append, ← hentries] at htrees
  have hmirror : (rebuilt cfg e.directory).map (fun m => m.tree.unflagged) =
      (memtables e).map fun m => m.tree.unflagged := by
    rw [memtables, List.map_append, h.frozen, List.map_singleton, h.active, ← hentries]
    exact htrees
  have hcleared : ∀ ms : List MemTable, (versions ms).map KeyValuePair.unflagged =
      (ms.map fun m => m.tree.unflagged).flatMap BPlusTree.entries := by
    intro ms
    simp only [versions, List.map_flatMap, List.flatMap_map, BPlusTree.entries_unflagged]
    rfl
  have hflags := filled_flags (WAL.recover e.directory.wal).entries (replayStart cfg e.directory)
    (by rw [entries_replayStart]; exact fun _ hx => by cases hx)
  have hsame : versions (rebuilt cfg e.directory) =
      (versions (rebuilt cfg e.directory)).map KeyValuePair.unflagged := by
    have hmem : ∀ v ∈ versions (rebuilt cfg e.directory), v.unflagged = v := by
      intro v hv
      obtain ⟨m, hm, hin⟩ := List.mem_flatMap.mp hv
      exact unflagged_eq_self (hflags m hm v hin)
    rw [List.map_congr_left hmem, List.map_id']
  rw [hsame, hcleared, hmirror, ← hcleared]

/-- A batch and a normal write, all synced. -/
def plainRun : List BatchIsolation.Action :=
  [.insert [1] [2], .startBatch, .batchInsert [3] [4], .commitBatchAsync, .sync true, .commitBatchFinalize]

/-- A delete that is synced and recovered. -/
def deletingRun : List BatchIsolation.Action := [.insert [1] [2], .delete [1], .sync true]

end Kvdb.ReplayedVersions
