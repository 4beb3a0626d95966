import Kvdb.MemTable.Tree
import Kvdb.SSTable.Compact
import Kvdb.Cache.KVCache
import Kvdb.Log.Wal
import Kvdb.Log.Manifest

/-! # The engine: its state and its write and flush paths (`engine.cpp`)

`Engine` holds the members of `LSMTreeEngine` and the data directory (`files`, the WAL file and the
MANIFEST inside `wal` and `manifest`). Each public call is a composition of the steps that the
source makes atomic by a lock or an atomic counter, so that the same steps serve the interleavings
of several threads. Timestamps are unbounded here except where `StartBatch` adds the configured
gap, which the caller may choose as any 64-bit number. -/
namespace Kvdb
set_option autoImplicit false

/-- The constructor arguments of the engine, with the two computations that are not kept
(`std::hash` and the floating-point sizing of a bloom filter). -/
structure EngineConfig where
  memtableMaxBytes : ℕ
  batchIncrementGap : ℕ
  kvMaxEntries : ℕ
  kvMaxBytes : ℕ
  kvCacheShards : ℕ
  hash : Bytes → ℕ
  bloomSizing : ℕ → ℕ × ℕ

structure PendingFileGC where
  filepath : ℕ
  manifestSeq : ℕ
  fenceTs : ℕ
  deriving DecidableEq, Repr

/-- `LSMTreeEngine`; `sstCache` is null while the constructor recovers. -/
structure Engine where
  cfg : EngineConfig
  activeMemtable : MemTable
  frozenMemtables : List MemTable
  nextTableId : ℕ
  sstableMetadata : List Metadata
  sstableSeq : ℕ
  globalTs : ℕ
  batchInProgress : Bool
  batchTs : ℕ
  batchTouched : Bool
  batchCommitSeq : ℕ
  wal : WAL
  manifest : List ManifestRecord
  syncedSeq : ℕ
  kvCache : KVCache
  sstCache : Option SSTableCache
  files : ℕ → Option SSTableFile
  pendingGc : List PendingFileGC

/-- How a call ends: it returns, it throws `std::invalid_argument`, or it waits on a condition. -/
inductive Outcome (α : Type) where
  | returned (result : α)
  | threw (what : String)
  | waiting

namespace Engine

/-! ## The write path -/

def tick (e : Engine) : Engine := { e with globalTs := e.globalTs + 1 }

/-- The timestamp of a normal write, taken under `batch_mutex_`; `none` while the writer waits. -/
def takeTimestamp (e : Engine) : Option (ℕ × Engine) :=
  if e.batchInProgress && decide (e.batchTs < e.globalTs + 1) then none
  else some (e.globalTs + 1, e.tick)

/-- `wal_->Buffer`. -/
def bufferWrite (e : Engine) (key value : Bytes) (ts : ℕ) : Engine :=
  { e with wal := e.wal.buffer key value ts }

/-- `active_memtable_->Insert`. -/
def memInsert (e : Engine) (key value : Bytes) (ts : ℕ) (isTombstone : Bool) : Engine :=
  { e with activeMemtable := e.activeMemtable.insert key value ts isTombstone }

/-- Freeze the active memtable and install a fresh one, under `memtable_mutex_`. -/
def rotate (e : Engine) : Engine :=
  { e with
    frozenMemtables := e.frozenMemtables ++ [e.activeMemtable.freeze]
    activeMemtable := MemTable.new e.nextTableId e.cfg.memtableMaxBytes
    nextTableId := e.nextTableId + 1 }

def freezeIfFull (e : Engine) : Engine := if e.activeMemtable.isFull then e.rotate else e

/-- The checks of `Insert` and `Delete` on their arguments, with their messages. -/
def keyError (key : Bytes) : Option String :=
  if Config.maxKeyBytes < key.length then
    some ("Key size (" ++ toString key.length ++ " bytes) exceeds maximum allowed (" ++
      toString Config.maxKeyBytes ++ " bytes)")
  else none

def entrySize (key value : Bytes) : ℕ :=
  key.length + value.length + Config.memTableEntryOverheadBytes

def pairError (key value : Bytes) : Option String :=
  if Config.maxKeyValuePairBytes < entrySize key value then
    some ("Key-value pair size (" ++ toString (entrySize key value) ++
      " bytes) exceeds maximum allowed (" ++ toString Config.maxKeyValuePairBytes ++ " bytes)")
  else none

/-- The body that `Insert` and `Delete` share, with timestamp `ts`. -/
def applyWrite (e : Engine) (key value : Bytes) (isTombstone : Bool) (ts : ℕ) : Engine :=
  (((e.bufferWrite key value ts).memInsert key value ts isTombstone).freezeIfFull)

/-- `Insert`: the engine and the WAL sequence number that the call returns. -/
def insert (e : Engine) (key value : Bytes) : Outcome (Engine × ℕ) :=
  match keyError key, pairError key value with
  | some what, _ => .threw what
  | none, some what => .threw what
  | none, none =>
    match e.takeTimestamp with
    | none => .waiting
    | some (ts, e') =>
      let written := e'.applyWrite key value false ts
      .returned ({ written with kvCache := written.kvCache.put key value ts },
        (e'.bufferWrite key value ts).wal.batchSeq)

/-- `Delete`. -/
def delete (e : Engine) (key : Bytes) : Outcome (Engine × ℕ) :=
  match keyError key with
  | some what => .threw what
  | none =>
    match e.takeTimestamp with
    | none => .waiting
    | some (ts, e') =>
      let written := e'.applyWrite key [] true ts
      .returned ({ written with kvCache := written.kvCache.erase key },
        (e'.bufferWrite key [] ts).wal.batchSeq)

/-! ## Flushing -/

/-- `sstable_seq_.fetch_add(n)`; the caller keeps the old value. -/
def reserveSeq (e : Engine) (n : ℕ) : Engine := { e with sstableSeq := e.sstableSeq + n }

def writeFile (e : Engine) (path : ℕ) (file : SSTableFile) : Engine :=
  { e with files := fun n => if n = path then some file else e.files n }

/-- The file that `DoFlush` writes for a memtable. -/
def flushFile (e : Engine) (m : MemTable) : SSTableFile :=
  SSTableFile.writeFromWalk e.cfg.bloomSizing m.tree.memTableWalk m.entryCount m.tree.abortedBatchTs

/-- `WriteFromWalk` under number `seq`: the file is written and its blocks are cached. -/
def flushWrite (e : Engine) (m : MemTable) (seq : ℕ) : Engine :=
  { e.writeFile seq (e.flushFile m) with
    sstCache := e.sstCache.map fun c => c.putBlocks seq 0 (e.flushFile m).blocks }

/-- The rest of `DoFlush`: read the metadata back, publish it and record it in the MANIFEST. -/
def flushPublish (e : Engine) (m : MemTable) (seq : ℕ) : Engine :=
  match readMetadata (e.files seq) seq e.sstCache seq with
  | none => e
  | some (md, cache) =>
    let md' := { md with sourceTableId := m.id, filepath := seq, manifestSeq := seq }
    { e with
      sstCache := cache
      sstableMetadata := e.sstableMetadata ++ [md']
      manifest := Manifest.addSSTable e.manifest seq md' }

/-- `DoFlush`. -/
def doFlush (e : Engine) (m : MemTable) : Engine :=
  if m.entryCount = 0 then e
  else ((e.reserveSeq 1).flushWrite m e.sstableSeq).flushPublish m e.sstableSeq

/-- `wal_->WriteCheckpoint(global_ts, batch_in_progress ? batch_ts : 0)`. -/
def writeCheckpoint (e : Engine) : Engine :=
  { e with wal := e.wal.writeCheckpoint e.globalTs (if e.batchInProgress then e.batchTs else 0) }

/-- One round of `FlushWorkerLoop`: the memtable leaves `frozen_memtables_` before it is written. -/
def flushWorker (e : Engine) : Engine :=
  match e.frozenMemtables with
  | [] => e
  | m :: rest =>
    let popped := { e with frozenMemtables := rest }
    if 0 < m.entryCount then (popped.doFlush m).writeCheckpoint else popped

/-- The flush worker run until it has nothing to do. -/
def drainFrozen : ℕ → Engine → Engine
  | 0, e => e
  | n + 1, e => drainFrozen n e.flushWorker

def waitForPendingFlushes (e : Engine) : Engine := drainFrozen e.frozenMemtables.length e

/-- `Flush`. -/
def flush (e : Engine) : Engine :=
  if e.activeMemtable.entryCount = 0 then e else e.rotate.waitForPendingFlushes

/-! ## Compaction -/

/-- `UINT64_MAX`, what `MinActiveTS` returns when no reader is registered. -/
def uint64Max : ℕ := 2 ^ 64 - 1

/-- `DrainFileGC`, with the smaller of the two trackers' minima. -/
def drainFileGC (e : Engine) (minActiveTs : ℕ) : Engine :=
  let ready := e.pendingGc.filter fun p => decide (p.fenceTs ≤ minActiveTs)
  { e with
    pendingGc := e.pendingGc.filter fun p => !decide (p.fenceTs ≤ minActiveTs)
    sstCache := e.sstCache.map fun c => ready.foldl (fun c p => c.invalidate p.manifestSeq) c
    files := fun n => if ready.any fun p => decide (p.filepath = n) then none else e.files n }

/-- The manifest records of a compaction. Every removal carries the current value of
`sstable_seq_`, every addition takes the next one. -/
def compactionRecords (file : List ManifestRecord) (seq removals : ℕ) (outputs : List Metadata) :
    List ManifestRecord :=
  file ++ List.replicate removals (.removeSSTable seq) ++
    (outputs.zipIdx seq).map fun p => Manifest.addRecord p.2 p.1

/-- `gc_seq`: the sequence number under which the first input with that path is cached. -/
def gcSeq (inputs : List Metadata) (path : ℕ) : ℕ :=
  ((inputs.find? fun m => decide (m.filepath = path)).map Metadata.manifestSeq).getD 0

/-- The largest output file of a level. -/
def maxSstableSize (level : ℕ) : ℕ := Config.levelBaseSSTableSize * Config.levelSizeMultiplier ^ level

/-- The inputs of `CompactLevel`. -/
def compactionInputs (e : Engine) (fromLevel topLevel : ℕ) : List Metadata :=
  e.sstableMetadata.filter fun m => decide (fromLevel ≤ m.level ∧ m.level ≤ topLevel)

/-- The arguments with which `CompactLevel` calls `SSTable::Compact`. -/
def compactionJob (e : Engine) (fromLevel topLevel : ℕ) : Compaction.Job where
  sizing := e.cfg.bloomSizing
  files := e.files
  cache := e.sstCache.getD SSTableCache.empty
  inputs := e.compactionInputs fromLevel topLevel
  seqStart := e.sstableSeq
  level := topLevel + 1
  maxSstableSize := maxSstableSize (topLevel + 1)
  isLast := decide (topLevel + 1 = Config.maxLevel)
  lower := []
  upper := []
  visibleTs := e.globalTs

def runCompact (e : Engine) (fromLevel topLevel : ℕ) : Compaction.Result :=
  Compaction.compact (e.compactionJob fromLevel topLevel)

/-- `CompactLevel` returns without work. -/
def nothingToCompact (e : Engine) (fromLevel topLevel : ℕ) : Bool :=
  decide (Config.maxLevel < topLevel + 1) || (e.compactionInputs fromLevel topLevel).isEmpty

/-- The numbers that `CompactLevel` reserves for its outputs. -/
def reservedOutputs : ℕ := 64

def writeOutputs (e : Engine) (outputs : List (ℕ × SSTableFile)) : Engine :=
  outputs.foldl (fun e p => e.writeFile p.1 p.2) e

/-- The swap of the catalogue: the inputs leave it, by path, and the outputs are appended. -/
def publishCompaction (e : Engine) (inputs outputs : List Metadata) : Engine :=
  { e with
    sstableMetadata :=
      (e.sstableMetadata.filter fun m => !inputs.any fun i => decide (m.filepath = i.filepath)) ++ outputs }

def recordCompaction (e : Engine) (inputs outputs : List Metadata) : Engine :=
  { e with
    manifest := compactionRecords e.manifest e.sstableSeq inputs.length outputs
    sstableSeq := e.sstableSeq + outputs.length }

/-- The garbage is dropped from the cache and queued for deletion. -/
def deferGarbage (e : Engine) (inputs : List Metadata) (garbage : List ℕ) : Engine :=
  { e with
    sstCache := e.sstCache.map fun c => garbage.foldl (fun c f => c.invalidate (gcSeq inputs f)) c
    pendingGc := e.pendingGc ++ garbage.map fun f => ⟨f, gcSeq inputs f, e.globalTs⟩ }

/-- `CompactLevel`. -/
def compactLevel (e : Engine) (fromLevel topLevel : ℕ) : Engine :=
  if e.nothingToCompact fromLevel topLevel then e
  else
    let inputs := e.compactionInputs fromLevel topLevel
    let result := e.runCompact fromLevel topLevel
    ((((e.reserveSeq reservedOutputs).writeOutputs result.files).publishCompaction inputs
      result.outputs).recordCompaction inputs result.outputs).deferGarbage inputs result.garbage

/-- The number of catalogued SSTables of a level. -/
def levelCount (e : Engine) (level : ℕ) : ℕ :=
  (e.sstableMetadata.filter fun m => decide (m.level = level)).length

/-- The cascade loop: the last level of the unbroken run above `top` that has `threshold` tables. -/
def cascadeTop (e : Engine) (threshold : ℕ) : ℕ → ℕ → ℕ
  | 0, top => top
  | fuel + 1, top =>
    if top + 1 ≤ Config.maxLevel ∧ threshold ≤ e.levelCount (top + 1) then
      cascadeTop e threshold fuel (top + 1)
    else top

/-- The trigger loop of `ManualCompact`. -/
def triggerLevel (e : Engine) (threshold : ℕ) : ℕ → ℕ → Option ℕ
  | 0, _ => none
  | fuel + 1, level =>
    if Config.maxLevel < level then none
    else if threshold ≤ e.levelCount level then some level
    else triggerLevel e threshold fuel (level + 1)

/-- The levels that `ManualCompact` hands to `CompactLevel`, if it gets that far. -/
def manualRange (e : Engine) (minSstables fromLevel : ℤ) (cascade : Bool) : Option (ℕ × ℕ) :=
  if minSstables < 2 ∨ fromLevel < 0 ∨ (Config.maxLevel : ℤ) < fromLevel then none
  else
    (e.triggerLevel minSstables.toNat (Config.maxLevel + 1) fromLevel.toNat).map fun trigger =>
      (trigger, if cascade then e.cascadeTop minSstables.toNat Config.maxLevel trigger else trigger)

/-- `ManualCompact` with no reader registered, and the number of levels it returns. -/
def manualCompact (e : Engine) (minSstables fromLevel : ℤ) (cascade : Bool) : Engine × ℕ :=
  match e.manualRange minSstables fromLevel cascade with
  | none => (e, 0)
  | some (trigger, top) => ((e.compactLevel trigger top).drainFileGC uint64Max, top - trigger + 1)

/-- The levels that a round of `CompactionWorkerLoop` compacts. -/
def workerRange (e : Engine) : Option (ℕ × ℕ) :=
  if e.levelCount 0 < Config.defaultCompactionThreshold then none
  else some (0, e.cascadeTop Config.defaultCompactionThreshold Config.maxLevel 0)

/-- One round of `CompactionWorkerLoop` with no reader registered. -/
def compactionWorker (e : Engine) : Engine :=
  match e.workerRange with
  | none => e.drainFileGC uint64Max
  | some (bottom, top) => (e.compactLevel bottom top).drainFileGC uint64Max

/-! ## Lookup -/

/-- The order in which `Lookup` consults the catalogue: level 0 from the back, then the other
levels from the front. -/
def lookupOrder (catalogue : List Metadata) : List Metadata :=
  catalogue.reverse.filter (fun m => decide (m.level = 0)) ++
    catalogue.filter fun m => !decide (m.level = 0)

/-- The tests that let `Lookup` pass over a table. -/
def skips (scanned : List ℕ) (key : Bytes) (m : Metadata) : Bool :=
  decide (m.sourceTableId ∈ scanned) || (!m.minKey.isEmpty && decide (key < m.minKey)) ||
    (!m.maxKey.isEmpty && decide (m.maxKey < key)) || m.bloom.rejects key

/-- The SSTable phase over the given tables: an exception counts as not found. -/
def probeTables (files : ℕ → Option SSTableFile) (scanned : List ℕ) (key : Bytes) (readTs : ℕ) :
    List Metadata → Option SSTableCache → Option KeyValuePair × Option SSTableCache
  | [], cache => (none, cache)
  | m :: ms, cache =>
    if skips scanned key m then probeTables files scanned key readTs ms cache
    else
      match lookupKey (files m.filepath) key readTs cache m.manifestSeq with
      | none => probeTables files scanned key readTs ms cache
      | some (some v, cache') => (some v, cache')
      | some (none, cache') => probeTables files scanned key readTs ms cache'

/-- The memtable phase: the active table, then the frozen ones from the newest. -/
def probeMemtables (e : Engine) (key : Bytes) (readTs : ℕ) : Option Bytes :=
  (e.activeMemtable :: e.frozenMemtables.reverse).findSome? fun m => m.lookup key readTs

/-- The value that a found version stands for: `LookupKey` clears it for a tombstone. -/
def valueOf (v : KeyValuePair) : Bytes := if v.isTombstone then [] else v.value

/-- The SSTable phase of `Lookup`. -/
def probeSSTables (e : Engine) (key : Bytes) (readTs : ℕ) : Option KeyValuePair × Option SSTableCache :=
  probeTables e.files (e.frozenMemtables.map MemTable.id) key readTs (lookupOrder e.sstableMetadata)
    e.sstCache

/-- `Lookup` after a miss in the key-value cache: the value found and the SSTable cache. -/
def lookupUncached (e : Engine) (key : Bytes) (readTs : ℕ) : Option Bytes × Option SSTableCache :=
  match e.probeMemtables key readTs with
  | some v => (some v, e.sstCache)
  | none => ((e.probeSSTables key readTs).1.map valueOf, (e.probeSSTables key readTs).2)

/-- `Lookup` with the timestamp it has read: `some v` is `true` with `v` in `value_out`. -/
def lookupAt (e : Engine) (key : Bytes) (readTs : ℕ) : Option Bytes × Engine :=
  match e.kvCache.get key readTs with
  | (some v, kv) => (if v.isEmpty then none else some v, { e with kvCache := kv })
  | (none, kv) =>
    match e.lookupUncached key readTs with
    | (some v, cache) =>
      if v.isEmpty then (none, { e with kvCache := kv, sstCache := cache })
      else (some v, { e with kvCache := kv.put key v readTs, sstCache := cache })
    | (none, cache) => (none, { e with kvCache := kv, sstCache := cache })

def lookup (e : Engine) (key : Bytes) : Option Bytes × Engine := e.lookupAt key e.globalTs

end Engine

end Kvdb
