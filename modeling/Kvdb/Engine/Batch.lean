import Kvdb.Engine.Recovery

/-! # Batches and the sync worker

A batch writes under one timestamp that lies `batch_increment_gap_` above `global_ts_` when it
starts. `CommitBatch` buffers its commit record, waits until the sync worker has persisted it and
then raises `global_ts_` past the batch; here it is `commitBatchAsync` followed by
`commitBatchFinalize`. The addition of the gap and the raise are those of 64-bit numbers. -/
namespace Kvdb.Engine
set_option autoImplicit false

/-- One iteration of `SyncWorkerLoop`, forced or not. -/
def syncWorker (e : Engine) (force : Bool) : Engine :=
  let r := e.wal.sync force
  { e with wal := r.2, syncedSeq := if r.1.2 then r.1.1 else e.syncedSeq }

def startBatch (e : Engine) : Bool × Engine :=
  if e.batchInProgress then (false, e)
  else
    let ts := (e.globalTs + e.cfg.batchIncrementGap) % 2 ^ 64
    (true, { e with
      batchTs := ts
      batchInProgress := true
      batchTouched := false
      wal := e.wal.bufferBatchBegin ts })

/-- The body that `BatchInsert` and `BatchDelete` share. -/
def batchWrite (e : Engine) (key value : Bytes) (isTombstone : Bool) : Engine :=
  { e with batchTouched := true }.applyWrite key value isTombstone e.batchTs

def batchInsert (e : Engine) (key value : Bytes) : Outcome (Engine × ℕ) :=
  if Config.maxKeyBytes < key.length then .threw "Key too large for batch"
  else if Config.maxKeyValuePairBytes < entrySize key value then .threw "KV pair too large for batch"
  else .returned (e.batchWrite key value false, e.wal.batchSeq + 1)

def batchDelete (e : Engine) (key : Bytes) : Outcome (Engine × ℕ) :=
  if Config.maxKeyBytes < key.length then .threw "Key too large for batch"
  else .returned (e.batchWrite key [] true, e.wal.batchSeq + 1)

def commitBatchAsync (e : Engine) : Bool × Engine :=
  if e.batchInProgress then
    let wal := e.wal.bufferBatchCommit e.batchTs
    (true, { e with wal := wal, batchCommitSeq := wal.batchSeq })
  else (false, e)

def commitBatchFinalize (e : Engine) : Bool × Engine :=
  if e.batchInProgress && !decide (e.syncedSeq < e.batchCommitSeq) then
    (true, { e with
      globalTs := (e.batchTs + 1) % 2 ^ 64
      batchInProgress := false
      batchCommitSeq := 0 })
  else (false, e)

/-- `AbortBatch`: a batch that wrote something is recorded as aborted in the WAL, the MANIFEST, the
memtables and the catalogue. -/
def abortBatch (e : Engine) : Bool × Engine :=
  if e.batchInProgress then
    let marked := if e.batchTouched then
        { e with
          wal := ((e.wal.bufferAbort e.batchTs).sync true).2
          manifest := Manifest.addAbortBatch e.manifest e.batchTs e.sstableSeq
          activeMemtable := e.activeMemtable.addAbortedBatch e.batchTs
          frozenMemtables := e.frozenMemtables.map fun m => m.addAbortedBatch e.batchTs
          sstableMetadata := e.sstableMetadata.map fun m =>
            { m with abortedBatchTs := e.batchTs :: m.abortedBatchTs } }
      else e
    (true, { marked with batchInProgress := false })
  else (false, e)

end Kvdb.Engine
