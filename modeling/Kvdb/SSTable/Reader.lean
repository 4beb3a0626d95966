import Kvdb.SSTable.File
import Kvdb.Lib.Bisect

/-! # Reading SSTables through the shared cache (`sstable.cpp`, `iterator.cpp`, `block_cache.hpp`)

`SSTableCache` maps a `manifest_seq` to the metadata of a file and a `(manifest_seq, block)` pair to
a decoded block. Its two LRU maps are kept as partial functions; that an entry may be evicted at any
time is a step of the engine (`SSTableCache.evict`), not a part of the map.

`SSTableIterator` keeps the position of its file stream apart from the number of the block it is
about to read: a block that comes from the cache does not move the stream. -/
namespace Kvdb
set_option autoImplicit false

/-- `CachedHeavy` (block_reader.hpp). -/
structure CachedHeavy where
  bloom : BloomFilter
  firstKeys : List Bytes
  abortedBatchTs : List ℕ
  deriving DecidableEq, Repr

/-- `SSTableCache` (block_cache.hpp). -/
structure SSTableCache where
  heavy : ℕ → Option CachedHeavy
  blocks : ℕ → ℕ → Option (List KeyValuePair)

namespace SSTableCache

def empty : SSTableCache := ⟨fun _ => none, fun _ _ => none⟩

def putHeavy (c : SSTableCache) (seq : ℕ) (h : CachedHeavy) : SSTableCache :=
  { c with heavy := fun s => if s = seq then some h else c.heavy s }

def putBlock (c : SSTableCache) (seq idx : ℕ) (b : List KeyValuePair) : SSTableCache :=
  { c with blocks := fun s i => if s = seq ∧ i = idx then some b else c.blocks s i }

/-- `Invalidate`. -/
def invalidate (c : SSTableCache) (seq : ℕ) : SSTableCache where
  heavy s := if s = seq then none else c.heavy s
  blocks s i := if s = seq then none else c.blocks s i

/-- An eviction: only the entries that the two predicates keep stay. -/
def evict (c : SSTableCache) (keepHeavy : ℕ → Bool) (keepBlock : ℕ → ℕ → Bool) : SSTableCache where
  heavy s := if keepHeavy s then c.heavy s else none
  blocks s i := if keepBlock s i then c.blocks s i else none

/-- The blocks that `WriteFromWalk` puts, from block number `idx` on. -/
def putBlocks (c : SSTableCache) (seq : ℕ) : ℕ → List (List KeyValuePair) → SSTableCache
  | _, [] => c
  | idx, b :: bs => putBlocks (c.putBlock seq idx b) seq (idx + 1) bs

end SSTableCache

namespace SSTableFile

/-- What the metadata area of the file tells a reader. -/
def heavy (f : SSTableFile) : CachedHeavy := ⟨f.bloom, f.firstKeys, f.abortedBatchTs⟩

/-- The `Metadata` that `ReadMetadata` builds from the file itself. -/
def metadata (f : SSTableFile) (path : ℕ) : Metadata where
  filepath := path
  entryCount := f.entryCount
  minKey := f.minKey
  maxKey := f.maxKey
  bloom := f.bloom
  firstKeys := f.firstKeys
  abortedBatchTs := f.abortedBatchTs

end SSTableFile

/-- `ReadMetadata`; `none` when the file cannot be opened. On a cache hit the key range and the
entry count stay at their defaults. -/
def readMetadata (file : Option SSTableFile) (path : ℕ) (cache : Option SSTableCache) (seq : ℕ) :
    Option (Metadata × Option SSTableCache) :=
  match cache.bind fun c => c.heavy seq with
  | some h =>
    some ({ filepath := path, bloom := h.bloom, firstKeys := h.firstKeys,
            abortedBatchTs := h.abortedBatchTs }, cache)
  | none => file.map fun f => (f.metadata path, cache.map fun c => c.putHeavy seq f.heavy)

theorem readMetadata_level {file : Option SSTableFile} {path : ℕ} {cache cache' : Option SSTableCache}
    {seq : ℕ} {md : Metadata} (h : readMetadata file path cache seq = some (md, cache')) : md.level = 0 := by
  unfold readMetadata at h
  split at h
  · cases h
    rfl
  · obtain ⟨f, -, hf⟩ := Option.map_eq_some_iff.mp h
    cases hf
    rfl

theorem readMetadata_isSome (f : SSTableFile) (path : ℕ) (cache : Option SSTableCache) (seq : ℕ) :
    ∃ r, readMetadata (some f) path cache seq = some r := by
  unfold readMetadata
  split
  · exact ⟨_, rfl⟩
  · exact ⟨_, rfl⟩

/-- The block a key is looked for in first: the last one whose first key is not above it. -/
def lookupTarget (firstKeys : List Bytes) (key : Bytes) : ℕ :=
  Bisect.bisect (fun fk : Bytes => decide (key < fk)) (fun lo hi => (lo + hi) / 2) firstKeys
    firstKeys.length 0 firstKeys.length - 1

/-- `scanBlock`: the first visible version of the key in block order. -/
def scanBlock (aborted : List ℕ) (key : Bytes) (readTs : ℕ) (b : List KeyValuePair) :
    Option KeyValuePair :=
  b.find? fun e => !decide (e.timestamp ∈ aborted) && decide (e.key = key) && decide (e.timestamp ≤ readTs)

/-- The block that is read at a block offset of the file. -/
def fileBlock (file : Option SSTableFile) (idx : ℕ) : List KeyValuePair :=
  (file.bind fun f => f.blocks[idx]?).getD []

/-- The `search` lambda of `LookupKey`: a block that is not cached is read and cached. -/
def searchBlock (file : Option SSTableFile) (h : CachedHeavy) (key : Bytes) (readTs seq : ℕ)
    (cache : Option SSTableCache) (idx : ℕ) : Option KeyValuePair × Option SSTableCache :=
  if h.firstKeys.length ≤ idx then (none, cache)
  else
    match cache.bind fun c => c.blocks seq idx with
    | some b => (scanBlock h.abortedBatchTs key readTs b, cache)
    | none =>
      (scanBlock h.abortedBatchTs key readTs (fileBlock file idx),
        cache.map fun c => c.putBlock seq idx (fileBlock file idx))

/-- Search the blocks in turn until one has the key. -/
def searchBlocks (file : Option SSTableFile) (h : CachedHeavy) (key : Bytes) (readTs seq : ℕ) :
    List ℕ → Option SSTableCache → Option KeyValuePair × Option SSTableCache
  | [], cache => (none, cache)
  | idx :: idxs, cache =>
    let r := searchBlock file h key readTs seq cache idx
    if r.1.isSome then r else searchBlocks file h key readTs seq idxs r.2

/-- The blocks `LookupKey` searches: the target, the one before it and the one after it. -/
def lookupBlocks (firstKeys : List Bytes) (key : Bytes) : List ℕ :=
  let target := lookupTarget firstKeys key
  target :: ((if 0 < target then [target - 1] else []) ++
    if target + 1 < firstKeys.length then [target + 1] else [])

/-- `LookupKey` once the metadata is at hand. -/
def lookupIn (file : Option SSTableFile) (h : CachedHeavy) (key : Bytes) (readTs seq : ℕ)
    (cache : Option SSTableCache) : Option KeyValuePair × Option SSTableCache :=
  if h.firstKeys.isEmpty then (none, cache)
  else if h.bloom.rejects key then (none, cache)
  else searchBlocks file h key readTs seq (lookupBlocks h.firstKeys key) cache

/-- `LookupKey`: the version found and the cache afterwards; `none` when it throws. A tombstone is
found with an empty value. -/
def lookupKey (file : Option SSTableFile) (key : Bytes) (readTs : ℕ) (cache : Option SSTableCache)
    (seq : ℕ) : Option (Option KeyValuePair × Option SSTableCache) :=
  match cache.bind fun c => c.heavy seq with
  | some h => some (lookupIn file h key readTs seq cache)
  | none =>
    (readMetadata file 0 cache seq).map fun r =>
      lookupIn file ⟨r.1.bloom, r.1.firstKeys, r.1.abortedBatchTs⟩ key readTs seq r.2

/-! ## The block iterator -/

/-- `SSTableIterator`; `filePos` is the block that the file stream stands at. -/
structure SSTableIterator where
  block : List KeyValuePair
  pos : ℕ
  totalEntries : ℕ
  readEntries : ℕ
  current : KeyValuePair
  curBlock : ℕ
  filePos : ℕ

namespace SSTableIterator

/-- Step over aborted entries from `pos` on; past the last entry `current` stays there. -/
def skipAborted (aborted : List ℕ) (it : SSTableIterator) (pos : ℕ) : SSTableIterator :=
  let skipped := ((it.block.drop pos).takeWhile fun e => decide (e.timestamp ∈ aborted)).length
  match it.block[pos + skipped]? with
  | some e => { it with pos := pos + skipped, current := e }
  | none => { it with pos := pos + skipped, current := it.block.getLast?.getD it.current }

/-- `ReadNextBlock`; `cached` is what the cache holds for this file (nothing when `manifest_seq`
is 0). -/
def readNextBlock (blocks : List (List KeyValuePair)) (cached : ℕ → Option (List KeyValuePair))
    (aborted : List ℕ) (it : SSTableIterator) : SSTableIterator :=
  if it.totalEntries ≤ it.readEntries then { it with pos := 0, block := [] }
  else
    match cached it.curBlock with
    | some b => skipAborted aborted
        { it with block := b, readEntries := it.readEntries + b.length, curBlock := it.curBlock + 1 } 0
    | none =>
      let b := blocks.getD it.filePos []
      skipAborted aborted
        { it with block := b, readEntries := it.readEntries + b.length, curBlock := it.curBlock + 1,
                  filePos := it.filePos + 1 } 0

/-- The constructor: `total_entries` comes from the header, then the first block is read. -/
def openFile (f : SSTableFile) (cached : ℕ → Option (List KeyValuePair)) (aborted : List ℕ) :
    SSTableIterator :=
  readNextBlock f.blocks cached aborted
    ⟨[], 0, f.entryCount, 0, ⟨[], [], 0, false⟩, 0, 0⟩

def valid (it : SSTableIterator) : Bool :=
  decide (it.pos < it.block.length) ||
    (decide (it.readEntries < it.totalEntries) && decide (0 < it.block.length))

def next (blocks : List (List KeyValuePair)) (cached : ℕ → Option (List KeyValuePair))
    (aborted : List ℕ) (it : SSTableIterator) : SSTableIterator :=
  let it' := skipAborted aborted it (it.pos + 1)
  if it.block.length ≤ it'.pos then readNextBlock blocks cached aborted it' else it'

/-- The entries seen by a consumer that calls `Next` while `Valid()`. -/
def drain (blocks : List (List KeyValuePair)) (cached : ℕ → Option (List KeyValuePair))
    (aborted : List ℕ) : ℕ → SSTableIterator → List KeyValuePair
  | 0, _ => []
  | fuel + 1, it =>
    if it.valid then it.current :: drain blocks cached aborted fuel (next blocks cached aborted it)
    else []

/-- What the iterator over a file yields; a file that cannot be opened yields nothing. -/
def stream (file : Option SSTableFile) (cached : ℕ → Option (List KeyValuePair)) (aborted : List ℕ) :
    List KeyValuePair :=
  match file with
  | none => []
  | some f => drain f.blocks cached aborted (2 * f.entryCount + 1) (openFile f cached aborted)

end SSTableIterator

/-- What `reader_->GetBlock` can return to an iterator over a file. -/
def cachedBlocks (cache : SSTableCache) (seq : ℕ) : ℕ → Option (List KeyValuePair) :=
  fun i => if seq = 0 then none else cache.blocks seq i

end Kvdb
