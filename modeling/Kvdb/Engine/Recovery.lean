import Kvdb.Engine.State

/-! # Constructing an engine on a directory (the constructor and `RecoverFromWAL`)

A directory is what survives the process: the SSTable files, the MANIFEST and the records of the WAL
file. The caches are created at the end of the constructor, so the flushes of the recovery put
nothing into them, and `sstable_seq_` restarts at the number of recovered tables. -/
namespace Kvdb
set_option autoImplicit false

/-- The contents of `data_dir`. -/
structure Directory where
  files : ℕ → Option SSTableFile
  manifest : List ManifestRecord
  wal : List WalRecord

namespace Directory

def empty : Directory := ⟨fun _ => none, [], []⟩

end Directory

namespace Engine

/-- The key range, filter, block index and aborted batches come from the file; a file that cannot
be read leaves the record as the MANIFEST gives it. -/
def fillMetadata (files : ℕ → Option SSTableFile) (m : Metadata) : Metadata :=
  match readMetadata (files m.filepath) m.filepath none m.manifestSeq with
  | none => m
  | some (full, _) =>
    { m with
      minKey := full.minKey
      maxKey := full.maxKey
      bloom := full.bloom
      firstKeys := full.firstKeys
      abortedBatchTs := full.abortedBatchTs }

/-- The members after the MANIFEST and the WAL file have been opened. -/
def openDirectory (cfg : EngineConfig) (d : Directory) : Engine where
  cfg := cfg
  activeMemtable := MemTable.new 0 cfg.memtableMaxBytes
  frozenMemtables := []
  nextTableId := 1
  sstableMetadata := (Manifest.recover d.manifest).map (fillMetadata d.files)
  sstableSeq := (Manifest.recover d.manifest).length
  globalTs := 0
  batchInProgress := false
  batchTs := 0
  batchTouched := false
  batchCommitSeq := 0
  wal := ⟨d.wal, [], 0, 0⟩
  manifest := Manifest.compact d.manifest
  syncedSeq := 0
  kvCache := KVCache.new cfg.hash cfg.kvMaxEntries cfg.kvMaxBytes cfg.kvCacheShards
  sstCache := none
  files := d.files
  pendingGc := []

/-- An aborted batch is recorded in the active memtable and in every catalogue record. -/
def markAborted (e : Engine) (ts : ℕ) : Engine :=
  { e with
    activeMemtable := e.activeMemtable.addAbortedBatch ts
    sstableMetadata := e.sstableMetadata.map fun m => { m with abortedBatchTs := ts :: m.abortedBatchTs } }

def freshMemtable (e : Engine) : Engine :=
  { e with
    activeMemtable := MemTable.new e.nextTableId e.cfg.memtableMaxBytes
    nextTableId := e.nextTableId + 1 }

/-- Replace the active memtable by a fresh one and flush it at once. -/
def flushActive (e : Engine) : Engine := e.freshMemtable.doFlush e.activeMemtable.freeze

def raiseTs (e : Engine) (ts : ℕ) : Engine := { e with globalTs := max e.globalTs ts }

/-- One replayed entry, inserted without a tombstone flag. -/
def replayEntry (e : Engine) (kv : KeyValuePair) : Engine :=
  let e' := (e.memInsert kv.key kv.value kv.timestamp false).raiseTs kv.timestamp
  if e'.activeMemtable.isFull then e'.flushActive.writeCheckpoint else e'

/-- `wal_->Sync()`. -/
def syncWal (e : Engine) : Engine := { e with wal := (e.wal.sync true).2 }

/-- What follows the replay of at least one entry: the rest is flushed and a checkpoint written. -/
def finishReplay (e : Engine) : Engine :=
  ((if 0 < e.activeMemtable.entryCount then e.flushActive else e).writeCheckpoint).syncWal

/-- `RecoverFromWAL`. -/
def recoverFromWAL (e : Engine) : Engine :=
  let r := WAL.recover e.wal.file
  let e' := r.aborted.foldl markAborted (e.raiseTs r.checkpointTs)
  if r.entries.isEmpty then e' else (r.entries.foldl replayEntry e').finishReplay

/-- `LSMTreeEngine::LSMTreeEngine`. -/
def construct (cfg : EngineConfig) (d : Directory) : Engine :=
  { (openDirectory cfg d).recoverFromWAL with sstCache := some SSTableCache.empty }

/-- What is left of an engine when its process ends without its destructor. -/
def directory (e : Engine) : Directory := ⟨e.files, e.manifest, e.wal.file⟩

/-- `LSMTreeEngine::~LSMTreeEngine` with no reader registered: the log is synced, the frozen memtables are
flushed, and the active one too, with a checkpoint, if it holds anything. -/
def close (e : Engine) : Engine :=
  let flushed := e.frozenMemtables.foldl doFlush { e.syncWal with frozenMemtables := [] }
  let closed := if 0 < e.activeMemtable.entryCount then
      (flushed.doFlush e.activeMemtable).writeCheckpoint.syncWal
    else flushed
  closed.drainFileGC uint64Max

/-- An engine on an empty directory. -/
def create (cfg : EngineConfig) : Engine := construct cfg Directory.empty

/-- A configuration to run small examples with: a bloom filter of 64 bits and one hash function,
and the key hash that is constantly 0. -/
def smallConfig : EngineConfig where
  memtableMaxBytes := 4096
  batchIncrementGap := 1
  kvMaxEntries := 4
  kvMaxBytes := 4096
  kvCacheShards := 1
  hash := fun _ => 0
  bloomSizing := fun _ => (64, 1)

/-- A memtable with one version of the key `[1]`. -/
def oneEntry (id ts : ℕ) : MemTable := (MemTable.new id 4096).insert [1] [2] ts false

end Engine

end Kvdb
